import OslabRiscv.Sched.Switching

/-!
# The search for a descriptor

`page_id` keeps its value from one call of `allocPagetable` to the next, and the loop
does not look whether it has run past the last descriptor.  A descriptor that is in
use stays so, so that those behind `page_id` are the unused ones, and the loop ends on
the first it looks at.
-/

namespace Mm

open Outcome

/-- The indices of the descriptors that `findUnused` looks at. -/
def scanned : Nat → State → List Nat
  | 0, _ => []
  | fuel + 1, s =>
    s.pageId ::
      if (s.pages s.pageId).status = .unused then []
      else if s.pageId + 1 = pageNum then scanned fuel { s with pageId := 0 }
      else scanned fuel { s with pageId := s.pageId + 1 }

/-- Where the search of `allocPagetable` begins: a process that has all its pages gives
one up first. -/
def scanFrom (p : Nat) (s : State) : Except Stop State :=
  if (s.procs p).pagenum = (s.procs p).upbound then (doSwap p s).map Prod.snd else .ok s

/-- The search of a call of `allocPagetable` stays in `page_manager` and ends on an
entry that was unused, which is the one that the call returns. -/
def ScanRight (p : Nat) (s : State) : Prop :=
  ∀ t, scanFrom p s = .ok t →
    (∀ fuel, ∀ i ∈ scanned fuel t, i < pageNum) ∧
    ∃ id, (findUnused (pageNum + 1) t).map Prod.fst = .ok id ∧ id < pageNum ∧
      (s.pages id).status = .unused ∧
      ∀ status, (allocPagetable p status s).map Prod.fst = .ok id

/-! ## The calls of `allocPagetable` -/

/-- A call: for which process, and in which state. -/
abbrev Alloc.Call := Nat × State

section Calls

variable {α : Type}

/-- The calls of what follows a computation. -/
def callsAfter (x : Except Stop α) (f : α → List Alloc.Call) : List Alloc.Call :=
  match x with
  | .ok a => f a
  | .error _ => []

def tableAtCalls (p t i : Nat) (s : State) : List Alloc.Call :=
  if (s.mem t i).has present then [] else [(p, s)]

/-- The calls of the two levels that both helpers walk. -/
def walkCalls (va p : Nat) (s : State) (last : Nat → State → List Alloc.Call) :
    List Alloc.Call :=
  tableAtCalls p (s.procs p).pgdir (vpn2 va) s ++
    callsAfter (tableAt p (s.procs p).pgdir (vpn2 va) s) fun r =>
      tableAtCalls p r.1 (vpn1 va) r.2 ++
        callsAfter (tableAt p r.1 (vpn1 va) r.2) fun q => last q.1 q.2

def allocPageHelperCalls (va p : Nat) (s : State) : List Alloc.Call :=
  walkCalls va p s fun third s => tableAtCalls p third (vpn0 va) s

def buildPageHelperCalls (va p : Nat) (s : State) : List Alloc.Call :=
  walkCalls va p s fun _ _ => []

def copyOnWriteCalls (t i stval p : Nat) (s : State) : List Alloc.Call :=
  callsAfter (findPage (fun q => q.kva = pageOf (s.mem t i)) (s.procs p).pagehead s) fun id =>
    if (s.pages id).status ≠ .copyOnWrite then []
    else if (s.pages id).readMember = 1 then []
    else
      let s := setPage id { s.pages id with readMember := (s.pages id).readMember - 1 } s
      let s := modifyWord t i (cleanAttribute present) s
      (p, s) :: callsAfter (allocPagetable p .swapable s) fun r => buildPageHelperCalls stval p r.2

def handleLoadPageFaultCalls (p stval : Nat) (s : State) : List Alloc.Call :=
  match pteChecker stval (s.procs p).pgdir s with
  | none => allocPageHelperCalls stval p s
  | some _ => []

def handleStorePageFaultCalls (p stval : Nat) (s : State) : List Alloc.Call :=
  match pteChecker stval (s.procs p).pgdir s with
  | none => allocPageHelperCalls stval p s
  | some (t, i) =>
    if (s.mem t i).has inSd then []
    else if (s.mem t i).has write then []
    else copyOnWriteCalls t i stval p s

def doSnapshotCalls (p va : Nat) (s : State) : List Alloc.Call :=
  match pteChecker va (s.procs p).pgdir s with
  | none => []
  | some (t, i) =>
    callsAfter (findPage (fun q => q.kva = pageOf (s.mem t i)) (s.procs p).pagehead s) fun id =>
      callsAfter (probe (s.procs p).pgdir s (2 ^ 27) va) fun newVa =>
        buildPageHelperCalls newVa p
          (if (s.pages id).status ≠ .copyOnWrite then
            setPage id { s.pages id with status := .copyOnWrite, readMember := 2 }
              (modifyWord t i (cleanAttribute write) s)
          else setPage id { s.pages id with readMember := (s.pages id).readMember + 1 } s)

def loadTaskImgCalls (p : Nat) : List (Nat × (Nat → Pte)) → State → List Alloc.Call
  | [], _ => []
  | (va, c) :: rest, s =>
    allocPageHelperCalls va p s ++
      callsAfter (allocPageHelper va p .unswapable s) fun r =>
        loadTaskImgCalls p rest (setContent r.1 c r.2)

def doExecCalls (p : Nat) (stack args : Nat → Pte) (image : List (Nat × (Nat → Pte)))
    (s : State) : List Alloc.Call :=
  let s := setProc p ⟨true, 0, 0, maxPagetableNum, []⟩ s
  (p, s) :: callsAfter (allocPagetable p .unswapable s) fun r =>
    let pgdir := (r.2.pages r.1).kva
    let s := setProc p { r.2.procs p with pgdir := pgdir } r.2
    let s := sharePgtable pgdir (clearPgdir pgdir s)
    (p, s) :: callsAfter (allocPagetable p .unswapable s) fun r =>
      let s := setContent (r.2.pages r.1).kva stack r.2
      allocPageHelperCalls (userStackAddr - 4096) p s ++
        callsAfter (allocPageHelper (userStackAddr - 4096) p .unswapable s) fun r =>
          loadTaskImgCalls p image (setContent r.1 args r.2)

def doThreadCreateCalls (p father childnum : Nat) (stack : Nat → Pte) (s : State) :
    List Alloc.Call :=
  let s := setProc p ⟨true, (s.procs father).pgdir, 0, maxPagetableNum, []⟩ s
  (p, s) :: callsAfter (allocPagetable p .unswapable s) fun r =>
    allocPageHelperCalls (userStackAddr + childnum * 4096 - 4096) p
      (setContent (r.2.pages r.1).kva stack r.2)

def handleCalls : Event → State → List Alloc.Call
  | .exec p stack args image, s => doExecCalls p stack args image s
  | .load p stval, s => if (s.procs p).live then handleLoadPageFaultCalls p stval s else []
  | .store p stval, s => if (s.procs p).live then handleStorePageFaultCalls p stval s else []
  | .put _ _ _, _ => []
  | .snapshot p va, s => if (s.procs p).live then doSnapshotCalls p va s else []

def shmPageGetCalls (p : Nat) (key : Int) (v : Vm) : List Alloc.Call :=
  callsAfter (shmSlot key v) fun r =>
    let n := (r.2.shmPageNum p + 1) % 2 ^ 64
    let vaddr := (userStackAddr + (2 ^ 64 - (n + 1) * 4096 % 2 ^ 64)) % 2 ^ 64
    if (r.2.shm r.1).valid = false then
      (p, r.2.state) :: callsAfter (allocPagetable p .unswapable r.2.state) fun q =>
        buildPageHelperCalls vaddr p q.2
    else buildPageHelperCalls vaddr p r.2.state

end Calls

/-! ## What every call keeps -/

/-- A page that may be evicted is in use. -/
theorem swapable_used : PageStatus.swapable ≠ .unused := nofun

/-- A page that may not be evicted is in use. -/
theorem unswapable_used : PageStatus.unswapable ≠ .unused := nofun

/-- The books are right, and no descriptor before `page_id` is unused. -/
structure Booked (s : State) : Prop where
  ledger : ∃ n, Ledger n s
  used : ∀ id < s.pageId, (s.pages id).status ≠ .unused

variable {p : Nat} {s s' : State}

/-- The books depend on descriptors, counters and processes only. -/
theorem Booked.same (h : Booked s) (hpages : s'.pages = s.pages) (hid : s'.pageId = s.pageId)
    (hprocs : s'.procs = s.procs) (hkern : s'.kernMemCurr = s.kernMemCurr) : Booked s' := by
  obtain ⟨⟨n, hled⟩, hused⟩ := h
  refine ⟨⟨n, hled.same hpages hid hprocs hkern⟩, ?_⟩
  rw [hpages, hid]
  exact hused

/-- A descriptor in use is given another content, but stays in use. -/
theorem Booked.setPage (h : Booked s) {id : Nat} (hid : id < s.pageId) {q : PageInfo}
    (hq : q.status ≠ .unused) : Booked (setPage id q s) := by
  obtain ⟨⟨n, hled⟩, hused⟩ := h
  refine ⟨⟨n, hled.setPage hid q⟩, fun k hk => ?_⟩
  by_cases hki : k = id
  · rw [show (Mm.setPage id q s).pages k = q from if_pos hki]
    exact hq
  · rw [show (Mm.setPage id q s).pages k = s.pages k from if_neg hki]
    exact hused k hk

/-- A process with listed descriptors and a root table of its own. -/
theorem Booked.setProc (h : Booked s) {r : Proc} (hlist : ∀ id ∈ r.pagehead, id < s.pageId)
    (hdir : r.pgdir = 0 ∨ freememKernel ≤ r.pgdir ∧ r.pgdir < s.kernMemCurr) :
    Booked (setProc p r s) :=
  ⟨h.ledger.imp fun _ hled => hled.setProc hlist hdir, h.used⟩

/-- What is in the pages does not matter. -/
theorem Booked.content (h : Booked s) (t : Nat) (c : Nat → Pte) : Booked (setContent t c s) :=
  h.same rfl rfl rfl rfl

/-- The descriptors of a process have been passed by the search. -/
theorem Booked.listed (h : Booked s) {id : Nat} (hid : id ∈ (s.procs p).pagehead) :
    id < s.pageId :=
  h.ledger.elim fun _ hled => hled.listed p id hid

/-- An eviction keeps the books and does not search. -/
theorem doSwap_booked (h : Booked s) (p : Nat) :
    Holds AnyStop (fun r => Booked r.2 ∧ r.2.pageId = s.pageId) (doSwap p s) := by
  have hled := h.ledger
  obtain ⟨n, hled⟩ := hled
  unfold doSwap
  refine Holds.bind (P := fun id => id < s.pageId) ?_ fun id hid => ?_
  · unfold getSwapPage
    cases hf : (s.procs p).pagehead.find? fun id => (s.pages id).status = .swapable with
    | some id => exact hled.listed p id (List.mem_of_find?_eq_some hf)
    | none => trivial
  · unfold swapToSd
    refine Holds.bind (P := fun _ => True) ?_ fun ti _ => ?_
    · cases getPte _ _ _ with
      | ok a => trivial
      | error e => trivial
    · refine ⟨Booked.setPage ?_ ?_ ?_, rfl⟩
      · exact h.same rfl rfl rfl rfl
      · exact hid
      · exact nofun

/-- The descriptor at `page_id` is put to use. -/
theorem Booked.usedNext (h : Booked s) {q : PageInfo} (hq : q.status ≠ .unused)
    (hpages : s'.pages = fun k => if k = s.pageId then q else s.pages k)
    (hnext : s'.pageId = s.pageId + 1) : ∀ id < s'.pageId, (s'.pages id).status ≠ .unused := by
  intro id hid
  rw [hpages]
  by_cases hne : id = s.pageId
  · simp only [if_pos hne]
    exact hq
  · simp only [if_neg hne]
    exact h.used id (by omega)

/-- The descriptor that is taken is in use from then on. -/
theorem allocPagetable_booked (h : Booked s) (p : Nat) {status : PageStatus}
    (hst : status ≠ .unused) :
    Holds AnyStop (fun r => Booked r.2 ∧ r.1 < r.2.pageId ∧
      (r.2.procs p).pgdir = (s.procs p).pgdir) (allocPagetable p status s) := by
  obtain ⟨n, hled⟩ := h.ledger
  have hused : Holds AnyStop (fun r => ∀ id < r.2.pageId, (r.2.pages id).status ≠ .unused)
      (allocPagetable p status s) := by
    unfold allocPagetable
    split_ifs
    · refine Holds.bind (doSwap_booked h p) fun r hr => ?_
      obtain ⟨m, hm⟩ := hr.1.ledger
      refine Holds.bind (findUnused_next hm _) fun q hq => ?_
      obtain ⟨rfl, hroom⟩ := hq
      exact hr.1.usedNext (q := { r.2.pages r.2.pageId with status := status, kva := r.1 }) hst rfl rfl
    · refine Holds.bind (findUnused_next hled _) fun q hq => ?_
      obtain ⟨rfl, hroom⟩ := hq
      exact h.usedNext (q := { s.pages s.pageId with
        status := status, kva := (allocPage { s with pageId := s.pageId + 1 }).1 }) hst rfl rfl
  exact ((allocPagetable_taken hled p status).both hused).mono fun r hr =>
    ⟨⟨⟨n, hr.1.ledger⟩, hr.2⟩, hr.1.inUse, hr.1.pgdir⟩

/-- The search begins at an unused descriptor, if there is one. -/
theorem Booked.scanRight (h : Booked s) {id : Nat} (hid : id < pageNum)
    (hun : (s.pages id).status = .unused) (p : Nat) : ScanRight p s := by
  have hroom : s.pageId < pageNum := by
    by_contra hlt
    exact h.used id (by omega) hun
  have hnext {t : State} (ht : Booked t) (hpid : t.pageId = s.pageId) :
      (t.pages t.pageId).status = .unused ∧
      ∀ fuel, findUnused (fuel + 1) t = .ok (t.pageId, { t with pageId := t.pageId + 1 }) := by
    obtain ⟨n, hled⟩ := ht.ledger
    have hst := hled.fresh t.pageId le_rfl
    refine ⟨hst, fun fuel => ?_⟩
    unfold findUnused
    rw [if_neg (by omega), if_pos hst]
  have hs := hnext h rfl
  intro t hscan
  have ht : Booked t ∧ t.pageId = s.pageId := by
    unfold scanFrom at hscan
    split_ifs at hscan
    · cases hswap : doSwap p s with
      | ok r =>
          rw [hswap] at hscan
          cases hscan
          exact (doSwap_booked h p).of_ok hswap
      | error e =>
          rw [hswap] at hscan
          cases hscan
    · cases hscan
      exact ⟨h, rfl⟩
  have hfind := hnext ht.1 ht.2
  refine ⟨fun fuel i hi => ?_, s.pageId, ?_, hroom, hs.1, fun status => ?_⟩
  · cases fuel with
    | zero => cases hi
    | succ fuel =>
        unfold scanned at hi
        rw [if_pos hfind.1, List.mem_singleton] at hi
        rw [hi, ht.2]
        exact hroom
  · rw [hfind.2, ← ht.2]
    rfl
  · unfold scanFrom at hscan
    unfold allocPagetable
    split_ifs at hscan ⊢
    · cases hswap : doSwap p s with
      | ok r =>
          rw [hswap] at hscan
          cases hscan
          change (findUnused (pageNum + 1) r.2 >>= _).map Prod.fst = _
          rw [show findUnused (pageNum + 1) r.2 = _ from hfind.2 pageNum, ← ht.2]
          rfl
      | error e =>
          rw [hswap] at hscan
          cases hscan
    · rw [hs.2]
      rfl

/-! ## From call to call -/

/-- Every call is made with the books in order. -/
def Orderly (l : List Alloc.Call) : Prop := ∀ c ∈ l, Booked c.2

/-- No call. -/
theorem Orderly.nil : Orderly [] := nofun

/-- One more call from books that are in order. -/
theorem Orderly.cons (h : Booked s) {l : List Alloc.Call} (hl : Orderly l) :
    Orderly ((p, s) :: l) := by
  intro c hc
  rcases List.mem_cons.1 hc with rfl | hc
  · exact h
  · exact hl c hc

/-- The calls of two parts one after the other. -/
theorem Orderly.append {l l' : List Alloc.Call} (hl : Orderly l) (hl' : Orderly l') :
    Orderly (l ++ l') := by
  intro c hc
  rcases List.mem_append.1 hc with hc | hc
  · exact hl c hc
  · exact hl' c hc

/-- The calls behind a computation that keeps the books. -/
theorem Orderly.after {α : Type} {x : Except Stop α} {f : α → List Alloc.Call} {P : α → Prop}
    (hx : Holds AnyStop P x) (hf : ∀ a, P a → Orderly (f a)) : Orderly (callsAfter x f) := by
  cases x with
  | ok a => exact hf a hx
  | error e => exact Orderly.nil

/-- One level of a walk keeps the books. -/
theorem tableAt_booked (h : Booked s) (p t i : Nat) :
    Holds AnyStop (fun r => Booked r.2) (tableAt p t i s) := by
  unfold tableAt
  split_ifs
  · exact h
  · exact Holds.bind (allocPagetable_booked h p unswapable_used) fun r hr => hr.1.same rfl rfl rfl rfl

/-- One level of a walk takes its page from books that are in order. -/
theorem tableAtCalls_orderly (h : Booked s) (p t i : Nat) : Orderly (tableAtCalls p t i s) := by
  unfold tableAtCalls
  split_ifs
  · exact Orderly.nil
  · exact Orderly.nil.cons h

/-- So do the two levels of a walk and what follows. -/
theorem walkCalls_orderly (h : Booked s) (va p : Nat) {last : Nat → State → List Alloc.Call}
    (hlast : ∀ third s, Booked s → Orderly (last third s)) : Orderly (walkCalls va p s last) :=
  (tableAtCalls_orderly h p _ _).append (Orderly.after (tableAt_booked h p _ _) fun _ hr =>
    (tableAtCalls_orderly hr p _ _).append (Orderly.after (tableAt_booked hr p _ _) fun q hq =>
      hlast q.1 q.2 hq))

/-- `alloc_page_helper` keeps the books. -/
theorem allocPageHelper_booked (h : Booked s) (va p : Nat) {status : PageStatus}
    (hst : status ≠ .unused) :
    Holds AnyStop (fun r => Booked r.2) (allocPageHelper va p status s) := by
  unfold allocPageHelper
  refine Holds.bind (tableAt_booked h p _ _) fun r hr => ?_
  refine Holds.bind (tableAt_booked hr p _ _) fun r' hr' => ?_
  obtain ⟨third, s'⟩ := r'
  simp only
  split_ifs
  · exact hr'
  · refine Holds.bind (allocPagetable_booked hr' p hst) fun q hq => ?_
    have hset := hq.1.setPage hq.2.1
      (q := { q.2.pages q.1 with uva := va, pte := some (third, vpn0 va) }) (hq.1.used q.1 hq.2.1)
    exact hset.same rfl rfl rfl rfl

/-- `alloc_page_helper` takes its pages from books that are in order. -/
theorem allocPageHelperCalls_orderly (h : Booked s) (va p : Nat) :
    Orderly (allocPageHelperCalls va p s) :=
  walkCalls_orderly h va p fun third _ hs => tableAtCalls_orderly hs p third _

/-- `build_page_helper` keeps the books. -/
theorem buildPageHelper_booked (h : Booked s) (va p pa : Nat) :
    Holds AnyStop Booked (buildPageHelper va p pa s) := by
  unfold buildPageHelper
  refine Holds.bind (tableAt_booked h p _ _) fun r hr => ?_
  refine Holds.bind (tableAt_booked hr p _ _) fun r' hr' => ?_
  obtain ⟨third, s'⟩ := r'
  simp only
  split_ifs
  · exact hr'
  · exact hr'.same rfl rfl rfl rfl

/-- `build_page_helper` takes its tables from books that are in order. -/
theorem buildPageHelperCalls_orderly (h : Booked s) (va p : Nat) :
    Orderly (buildPageHelperCalls va p s) :=
  walkCalls_orderly h va p fun _ _ _ => Orderly.nil

/-- Reading a page back keeps the books. -/
theorem swapToMem_booked (h : Booked s) (t i va kva p : Nat) :
    Holds AnyStop Booked (swapToMem t i va kva p s) := by
  unfold swapToMem
  refine Holds.bind (findPage_listed _ _ s) fun id hid => ?_
  split_ifs
  · trivial
  · trivial
  · have hset := h.setPage (h.listed hid)
      (q := { s.pages id with status := .swapable, uva := va, kva := kva }) nofun
    exact hset.same rfl rfl rfl rfl

/-- Bringing a page back in keeps the books. -/
theorem swapIn_booked (h : Booked s) (t i stval p : Nat) :
    Holds AnyStop Booked (swapIn t i stval p s) := by
  unfold swapIn
  split_ifs
  · exact Holds.bind (doSwap_booked h p) fun r hr => swapToMem_booked hr.1 t i stval r.1 p
  · trivial

/-- A descriptor of a process, with another count. -/
theorem Booked.setCount (h : Booked s) {id : Nat} (hid : id ∈ (s.procs p).pagehead) (n : Int) :
    Booked (Mm.setPage id { s.pages id with readMember := n } s) :=
  h.setPage (h.listed hid) (h.used id (h.listed hid))

/-- Copying a shared page keeps the books. -/
theorem copyOnWrite_booked (h : Booked s) (t i stval p : Nat) :
    Orderly (copyOnWriteCalls t i stval p s) ∧
    Holds AnyStop Booked (copyOnWrite t i stval p s) := by
  have hcount {id : Nat} (hid : id ∈ (s.procs p).pagehead) :
      Booked (modifyWord t i (cleanAttribute present)
        (setPage id { s.pages id with readMember := (s.pages id).readMember - 1 } s)) :=
    (h.setCount hid _).same rfl rfl rfl rfl
  constructor
  · refine Orderly.after (findPage_listed _ _ s) fun id hid => ?_
    split_ifs
    · exact Orderly.nil
    · exact Orderly.nil
    · exact Orderly.cons (hcount hid) (Orderly.after
        (allocPagetable_booked (hcount hid) p swapable_used) fun r hr =>
          buildPageHelperCalls_orderly hr.1 stval p)
  · unfold copyOnWrite
    refine Holds.bind (findPage_listed _ _ s) fun id hid => ?_
    have hlt := h.listed hid
    split_ifs
    · trivial
    · refine Booked.setPage ?_ ?_ nofun
      · exact (h.setCount hid 0).same rfl rfl rfl rfl
      · exact hlt
    · refine Holds.bind (allocPagetable_booked (hcount hid) p swapable_used) fun r hr => ?_
      refine Holds.bind (buildPageHelper_booked hr.1 stval p _) fun q hq => ?_
      exact hq.same rfl rfl rfl rfl

/-- A load fault keeps the books. -/
theorem handleLoadPageFault_booked (h : Booked s) (p stval : Nat) :
    Orderly (handleLoadPageFaultCalls p stval s) ∧
    Holds AnyStop Booked (handleLoadPageFault p stval s) := by
  unfold handleLoadPageFault handleLoadPageFaultCalls
  cases pteChecker stval (s.procs p).pgdir s with
  | none =>
      exact ⟨allocPageHelperCalls_orderly h stval p,
        Holds.bind (allocPageHelper_booked h stval p swapable_used) fun r hr => hr⟩
  | some ti =>
      refine ⟨Orderly.nil, ?_⟩
      simp only
      split_ifs
      · exact swapIn_booked h _ _ stval p
      · trivial
      · exact h.same rfl rfl rfl rfl

/-- A store fault keeps the books. -/
theorem handleStorePageFault_booked (h : Booked s) (p stval : Nat) :
    Orderly (handleStorePageFaultCalls p stval s) ∧
    Holds AnyStop Booked (handleStorePageFault p stval s) := by
  unfold handleStorePageFault handleStorePageFaultCalls
  cases pteChecker stval (s.procs p).pgdir s with
  | none =>
      exact ⟨allocPageHelperCalls_orderly h stval p,
        Holds.bind (allocPageHelper_booked h stval p swapable_used) fun r hr => hr⟩
  | some ti =>
      simp only
      split_ifs
      · exact ⟨Orderly.nil, swapIn_booked h _ _ stval p⟩
      · exact ⟨Orderly.nil, trivial⟩
      · exact ⟨Orderly.nil, h.same rfl rfl rfl rfl⟩
      · exact copyOnWrite_booked h _ _ stval p

/-- A snapshot keeps the books. -/
theorem doSnapshot_booked (h : Booked s) (p va : Nat) :
    Orderly (doSnapshotCalls p va s) ∧
    Holds AnyStop (fun r => Booked r.2) (doSnapshot p va s) := by
  unfold doSnapshot doSnapshotCalls
  cases pteChecker va (s.procs p).pgdir s with
  | none => exact ⟨Orderly.nil, trivial⟩
  | some ti =>
      have hmark {id : Nat} (hid : id ∈ (s.procs p).pagehead) :
          Booked (if (s.pages id).status ≠ .copyOnWrite then
            setPage id { s.pages id with status := .copyOnWrite, readMember := 2 }
              (modifyWord ti.1 ti.2 (cleanAttribute write) s)
          else setPage id { s.pages id with readMember := (s.pages id).readMember + 1 } s) := by
        split_ifs
        · refine Booked.setPage ?_ ?_ nofun
          · exact h.same rfl rfl rfl rfl
          · exact h.listed hid
        · exact h.setCount hid _
      simp only
      constructor
      · exact Orderly.after (findPage_listed _ _ s) fun id hid =>
          Orderly.after (probe_drawn _ s _ va) fun newVa _ =>
            buildPageHelperCalls_orderly (hmark hid) newVa p
      · refine Holds.bind (findPage_listed _ _ s) fun id hid => ?_
        refine Holds.bind (probe_drawn _ s _ va) fun newVa _ => ?_
        refine Holds.bind (buildPageHelper_booked (hmark hid) newVa p _) fun q hq => ?_
        cases pteChecker newVa (q.procs p).pgdir q with
        | none => trivial
        | some ti' => exact hq.same rfl rfl rfl rfl

/-- Loading an image keeps the books, by induction on its pages. -/
theorem loadTaskImg_booked (p : Nat) (image : List (Nat × (Nat → Pte))) :
    ∀ {s : State}, Booked s →
      Orderly (loadTaskImgCalls p image s) ∧ Holds AnyStop Booked (loadTaskImg p image s) := by
  induction image with
  | nil =>
      intro s h
      exact ⟨Orderly.nil, h⟩
  | cons page rest ih =>
      intro s h
      have hpage := allocPageHelper_booked h page.1 p unswapable_used
      constructor
      · exact (allocPageHelperCalls_orderly h page.1 p).append
          (Orderly.after hpage fun r hr => (ih (hr.content _ _)).1)
      · unfold loadTaskImg
        exact Holds.bind hpage fun r hr => (ih (hr.content _ _)).2

/-- `do_exec` keeps the books. -/
theorem doExec_booked (h : Booked s) (p : Nat) (stack args : Nat → Pte)
    (image : List (Nat × (Nat → Pte))) :
    Orderly (doExecCalls p stack args image s) ∧
    Holds AnyStop Booked (doExec p stack args image s) := by
  have hnew : Booked (setProc p ⟨true, 0, 0, maxPagetableNum, []⟩ s) :=
    h.setProc (fun id hid => by cases hid) (Or.inl rfl)
  have hroot : Holds AnyStop (fun r => Booked (sharePgtable (r.2.pages r.1).kva
      (clearPgdir (r.2.pages r.1).kva
        (setProc p { r.2.procs p with pgdir := (r.2.pages r.1).kva } r.2))))
      (allocPagetable p .unswapable (setProc p ⟨true, 0, 0, maxPagetableNum, []⟩ s)) := by
    have hroom : ((setProc p ⟨true, 0, 0, maxPagetableNum, []⟩ s).procs p).pagenum ≠
        ((setProc p ⟨true, 0, 0, maxPagetableNum, []⟩ s).procs p).upbound := by
      simp only [setProc, if_pos]
      decide
    obtain ⟨n, hled⟩ := hnew.ledger
    refine ((allocPagetable_booked hnew p unswapable_used).both
      (allocPagetable_kva hled .unswapable hroom)).mono fun r hr => ?_
    have hdir := hr.1.1.setProc (p := p) (r := { r.2.procs p with pgdir := (r.2.pages r.1).kva })
      (fun id hid => hr.1.1.listed hid) (Or.inr hr.2)
    exact hdir.same rfl rfl rfl rfl
  have hstack {t : State} (ht : Booked t) : Holds AnyStop
      (fun r => Booked (setContent (r.2.pages r.1).kva stack r.2))
      (allocPagetable p .unswapable t) :=
    (allocPagetable_booked ht p unswapable_used).mono fun _ hr => hr.1.content _ _
  have hargs {t : State} (ht : Booked t) : Holds AnyStop
      (fun r => Booked (setContent r.1 args r.2))
      (allocPageHelper (userStackAddr - 4096) p .unswapable t) :=
    (allocPageHelper_booked ht _ p unswapable_used).mono fun _ hr => hr.content _ _
  constructor
  · exact Orderly.cons hnew (Orderly.after hroot fun r hr =>
      Orderly.cons hr (Orderly.after (hstack hr) fun r hr =>
        (allocPageHelperCalls_orderly hr _ p).append (Orderly.after (hargs hr) fun r hr =>
          (loadTaskImg_booked p image hr).1)))
  · unfold doExec
    refine Holds.bind hroot fun r hr => ?_
    refine Holds.bind (hstack hr) fun r hr => ?_
    exact Holds.bind (hargs hr) fun r hr => (loadTaskImg_booked p image hr).2

/-- `do_thread_create` keeps the books. -/
theorem doThreadCreate_booked (h : Booked s) (p father childnum : Nat) (stack : Nat → Pte) :
    Orderly (doThreadCreateCalls p father childnum stack s) ∧
    Holds AnyStop Booked (doThreadCreate p father childnum stack s) := by
  have hnew : Booked (setProc p ⟨true, (s.procs father).pgdir, 0, maxPagetableNum, []⟩ s) :=
    h.setProc (fun id hid => by cases hid) (h.ledger.elim fun _ hled => hled.dir father)
  have hstack : Holds AnyStop (fun r => Booked (setContent (r.2.pages r.1).kva stack r.2))
      (allocPagetable p .unswapable
        (setProc p ⟨true, (s.procs father).pgdir, 0, maxPagetableNum, []⟩ s)) :=
    (allocPagetable_booked hnew p unswapable_used).mono fun _ hr => hr.1.content _ _
  constructor
  · exact Orderly.cons hnew (Orderly.after hstack fun r hr => allocPageHelperCalls_orderly hr _ p)
  · unfold doThreadCreate
    refine Holds.bind hstack fun r hr => ?_
    exact Holds.bind (allocPageHelper_booked hr _ p unswapable_used) fun q hq => hq

/-- Every event keeps the books. -/
theorem handle_booked (h : Booked s) (e : Event) :
    Orderly (handleCalls e s) ∧ Holds AnyStop Booked (handle e s) := by
  cases e with
  | exec p stack args image => exact doExec_booked h p stack args image
  | load p stval =>
      simp only [handle, handleCalls]
      split_ifs
      · exact handleLoadPageFault_booked h p stval
      · exact ⟨Orderly.nil, h⟩
  | store p stval =>
      simp only [handle, handleCalls]
      split_ifs
      · exact handleStorePageFault_booked h p stval
      · exact ⟨Orderly.nil, h⟩
  | put p va word =>
      refine ⟨Orderly.nil, ?_⟩
      simp only [handle, put]
      split_ifs
      · change Booked _
        split
        · split_ifs
          · exact h.same rfl rfl rfl rfl
          · exact h
        · exact h
      · exact h
  | snapshot p va =>
      simp only [handle, handleCalls]
      split_ifs
      · obtain ⟨hcalls, hr⟩ := doSnapshot_booked h p va
        refine ⟨hcalls, ?_⟩
        cases hx : doSnapshot p va s with
        | ok r =>
            rw [hx] at hr
            exact hr
        | error e => trivial
      · exact ⟨Orderly.nil, h⟩

/-- `shm_page_get` keeps the books. -/
theorem shmPageGet_booked {v : Vm} (h : Booked v.state) (p : Nat) (key : Int) :
    Orderly (shmPageGetCalls p key v) ∧
    Holds AnyStop (fun r => Booked r.2.state) (shmPageGet p key v) := by
  have hslot : Holds AnyStop (fun r => Booked r.2.state) (shmSlot key v) :=
    (shmSlot_state key v).mono fun r hr => by
      rw [hr]
      exact h
  constructor
  · refine Orderly.after hslot fun r hr => ?_
    simp only
    split_ifs
    · exact Orderly.cons hr (Orderly.after
        (allocPagetable_booked hr p unswapable_used) fun q hq =>
          buildPageHelperCalls_orderly hq.1 _ p)
    · exact buildPageHelperCalls_orderly hr _ p
  · unfold shmPageGet
    refine Holds.bind hslot fun r hr => ?_
    obtain ⟨k, w⟩ := r
    simp only
    split_ifs
    · refine Holds.bind (allocPagetable_booked hr p unswapable_used) fun r hr => ?_
      refine Holds.bind (buildPageHelper_booked hr.1 _ p _) fun q hq => ?_
      exact hq.same rfl rfl rfl rfl
    · exact Holds.bind (buildPageHelper_booked hr _ p _) fun q hq => hq

/-- `shm_page_dt` keeps the books. -/
theorem shmPageDt_booked {v : Vm} (h : Booked v.state) (p addr : Nat) :
    Holds AnyStop (fun w => Booked w.state) (shmPageDt p addr v) := by
  unfold shmPageDt
  split
  · trivial
  · simp only
    split
    · exact h
    · exact h.same rfl rfl rfl rfl

/-- `do_taskset_exec` keeps the books. -/
theorem doTasksetExec_booked (h : Booked s) (unused : Bool)
    (image : List (Nat × (Nat → Pte))) :
    Holds AnyStop Booked (doTasksetExec unused image s) := by
  obtain ⟨n, hled⟩ := h.ledger
  have hused : Holds AnyStop (fun t => t.pages = s.pages ∧ t.pageId = s.pageId)
      (doTasksetExec unused image s) := by
    unfold doTasksetExec
    split_ifs
    · trivial
    · exact ⟨rfl, rfl⟩
    · exact ⟨rfl, rfl⟩
  refine ((doTasksetExec_ledger hled unused image).both hused).mono fun t ht => ⟨⟨_, ht.1⟩, ?_⟩
  rw [ht.2.1, ht.2.2]
  exact h.used

/-- The books are in order at the start. -/
theorem Booted.booked (h : Booted s) : Booked s := by
  refine ⟨⟨0, h.ledger⟩, fun id hid => ?_⟩
  rw [h.pageId] at hid
  exact absurd hid (Nat.not_lt_zero id)

end Mm

namespace Sched

open Outcome

/-- The calls of `allocPagetable` a kernel entry makes. -/
def allocCalls : Entry → System → List Mm.Alloc.Call
  | .call _ .exec load, y =>
    match freeSlot y.sched with
    | some i => Mm.doExecCalls i load.stack load.args load.image y.vm.state
    | none => []
  | .call cpu .threadCreate load, y =>
    match freeSlot y.sched, y.sched.coreRunning cpu with
    | some i, .task f => Mm.doThreadCreateCalls i f (y.childnum f + 1) load.stack y.vm.state
    | _, _ => []
  | .shmGet cpu key, y =>
    match y.sched.coreRunning cpu with
    | .task p => Mm.shmPageGetCalls p key y.vm
    | .idle => []
  | .page e, y => if isExec e then [] else Mm.handleCalls e y.vm.state
  | _, _ => []

/-- A kernel entry takes its pages from books that are in order. -/
theorem allocCalls_orderly {y : System} (h : Mm.Booked y.vm.state) (e : Entry) :
    Mm.Orderly (allocCalls e y) := by
  unfold allocCalls
  split
  · split
    · exact (Mm.doExec_booked h _ _ _ _).1
    · exact Mm.Orderly.nil
  · split
    · exact (Mm.doThreadCreate_booked h _ _ _ _).1
    · exact Mm.Orderly.nil
  · split
    · exact (Mm.shmPageGet_booked h _ _).1
    · exact Mm.Orderly.nil
  · split_ifs
    · exact Mm.Orderly.nil
    · exact (Mm.handle_booked h _).1
  · exact Mm.Orderly.nil

/-- The page work of a call keeps the books. -/
theorem callPages_booked {y : System} (h : Mm.Booked y.vm.state) (cpu : Nat) (c : Call)
    (load : Load) :
    Holds Mm.AnyStop (fun r => Mm.Booked r.1.state) (callPages cpu c load y) := by
  unfold callPages
  split
  · exact Holds.bind (Mm.doExec_booked h _ _ _ _).2 fun s hs => hs
  · exact Holds.bind (Mm.doThreadCreate_booked h _ _ _ _).2 fun s hs => hs
  · exact h

/-- Every kernel entry keeps the books. -/
theorem System.step_booked {y : System} (h : Mm.Booked y.vm.state) (e : Entry) :
    Holds AnyError (fun z => Mm.Booked z.vm.state) (System.step e y) := by
  have hany {α : Type} (x : Except (Stop ⊕ Mm.Stop) α) : Holds AnyError (fun _ => True) x :=
    .any (fun _ => trivial) x
  cases e with
  | call cpu c load =>
      exact Holds.bind (hany _) fun s _ => Holds.bind
        ((callPages_booked h cpu c load).mapError fun _ _ => trivial) fun r hr => hr
  | tasksetExec cpu mask load =>
      exact Holds.bind (hany _) fun _ _ => Holds.bind (hany _) fun s _ => Holds.bind
        ((Mm.doTasksetExec_booked h _ _).mapError fun _ _ => trivial) fun m hm => hm
  | tasksetChg cpu pid mask =>
      exact Holds.bind (hany _) fun _ _ => Holds.bind (hany _) fun s _ => h
  | shmGet cpu key =>
      exact Holds.bind (hany _) fun p _ => Holds.bind
        ((Mm.shmPageGet_booked h p key).2.mapError fun _ _ => trivial) fun r hr => hr
  | shmDt cpu addr =>
      exact Holds.bind (hany _) fun p _ => Holds.bind
        ((Mm.shmPageDt_booked h p addr).mapError fun _ _ => trivial) fun vm hvm => hvm
  | page e =>
      simp only [System.step]
      split_ifs
      · trivial
      · exact Holds.bind ((Mm.handle_booked h e).2.mapError fun _ _ => trivial) fun m hm => hm

/-- Every search that is made while a descriptor is unused is right. -/
def SearchesRight (l : List Mm.Alloc.Call) : Prop :=
  ∀ c ∈ l, ∀ id < Mm.pageNum, (c.2.pages id).status = .unused → Mm.ScanRight c.1 c.2

/-- From books that are in order every search ends at an unused descriptor, or finds none. -/
theorem SearchesRight.of_orderly {l : List Mm.Alloc.Call} (h : Mm.Orderly l) : SearchesRight l :=
  fun c hc _ hid hun => (h c hc).scanRight hid hun c.1

/-- From the pages of the shell on, all searches of all kernel entries are right. -/
theorem searches_right {s : Mm.State} (hboot : Mm.Booted s) {stack args : Nat → Mm.Pte}
    {image : List (Nat × (Nat → Mm.Pte))} {y z : System}
    (hexec : Mm.doExec 0 stack args image s = .ok y.vm.state) {es : List Entry}
    (hrun : run System.step es y = .ok z) (e : Entry) :
    SearchesRight (Mm.doExecCalls 0 stack args image s) ∧ SearchesRight (allocCalls e z) := by
  have hshell := Mm.doExec_booked hboot.booked 0 stack args image
  refine ⟨SearchesRight.of_orderly hshell.1, SearchesRight.of_orderly (allocCalls_orderly ?_ e)⟩
  exact run_invariant (I := fun y => Mm.Booked y.vm.state) (C := fun _ _ => True)
    (fun y e _ h _ hz => (System.step_booked h e).of_ok hz) es y z (hshell.2.of_ok hexec)
    (allSteps_true es y) hrun

/-- The shell is loaded and reads a page; the search for the next page it reads. -/
theorem searches_right_shell : ∃ m m', Mm.doExec 0 Mm.blank Mm.blank [] Mm.bootState = .ok m ∧
    Mm.handle (.load 0 0x20000) m = .ok m' ∧
    SearchesRight (allocCalls (.page (.load 0 0x30000))
      ⟨initState, ⟨m', fun _ => ⟨false, 0, 0, 0⟩, fun _ => 0⟩, fun _ => 0⟩) := by
  have hmem : returns (fun _ : Mm.State => True) (run Mm.handle
      [.exec 0 Mm.blank Mm.blank [], .load 0 0x20000] Mm.bootState) = true := by decide +kernel
  obtain ⟨m', hall, -⟩ := exists_of_returns hmem
  obtain ⟨m, hm, hrest⟩ := run_cons hall
  obtain ⟨m₁, hm', hrest⟩ := run_cons hrest
  cases hrest
  refine ⟨m, m', hm, hm', ?_⟩
  have hstep : run System.step [.page (.load 0 0x20000)]
      ⟨initState, ⟨m, fun _ => ⟨false, 0, 0, 0⟩, fun _ => 0⟩, fun _ => 0⟩ =
      .ok ⟨initState, ⟨m', fun _ => ⟨false, 0, 0, 0⟩, fun _ => 0⟩, fun _ => 0⟩ := by
    simp only [run, System.step, isExec, hm']
    rfl
  exact (searches_right Mm.bootState_booted (y := ⟨initState, ⟨m, _, _⟩, _⟩) hm hstep _).2

end Sched
