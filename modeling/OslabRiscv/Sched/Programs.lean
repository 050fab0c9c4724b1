import OslabRiscv.Boot.Image
import OslabRiscv.Sched.Overflow

/-!
# Starting programs by name

`load_task_img` looks a name up in `tasks` when the PCB and the first pages of the new
process have been taken already.  The search has no result for a name that is not
there: entry 16, which lies behind the array, is read like any other.
-/

namespace Mm

open Outcome

variable {p : Nat} {s s' : State}

/-- Pages have been taken, and all root tables are where they were. -/
structure Adds (s s' : State) : Prop where
  kern : s.kernMemCurr ≤ s'.kernMemCurr
  pgdir : ∀ q, (s'.procs q).pgdir = (s.procs q).pgdir

theorem Adds.refl (s : State) : Adds s s := ⟨le_rfl, fun _ => rfl⟩

theorem Adds.trans {s'' : State} (h : Adds s s') (h' : Adds s' s'') : Adds s s'' :=
  ⟨h.kern.trans h'.kern, fun q => (h'.pgdir q).trans (h.pgdir q)⟩

/-- A process that keeps its root. -/
theorem Adds.setProc (h : Adds s s') {r : Proc} (hdir : r.pgdir = (s'.procs p).pgdir) :
    Adds s (setProc p r s') := by
  refine ⟨h.kern, fun q => ?_⟩
  by_cases hq : q = p
  · rw [show (Mm.setProc p r s').procs q = r from if_pos hq, hdir, ← hq]
    exact h.pgdir q
  · rw [show (Mm.setProc p r s').procs q = s'.procs q from if_neg hq]
    exact h.pgdir q

/-- An eviction takes no new page. -/
theorem doSwap_same (p : Nat) (s : State) :
    Holds AnyStop (fun r => r.2.kernMemCurr = s.kernMemCurr ∧ r.2.procs = s.procs) (doSwap p s) := by
  unfold doSwap
  refine Holds.bind (.any (fun _ => trivial) _) fun id _ => ?_
  unfold swapToSd
  exact Holds.bind (.any (fun _ => trivial) _) fun ti _ => ⟨rfl, rfl⟩

/-- `allocPagetable` takes a page at most. -/
theorem allocPagetable_adds (p : Nat) (status : PageStatus) (s : State) :
    Holds AnyStop (fun r => Adds s r.2) (allocPagetable p status s) := by
  unfold allocPagetable
  split_ifs
  · refine Holds.bind (doSwap_same p s) fun r hr => ?_
    refine Holds.bind (findUnused_same _ r.2) fun q hq => ?_
    have hadds : Adds s (setPage q.1 { q.2.pages q.1 with status := status, kva := r.1 } q.2) :=
      ⟨(hq.2.1.trans hr.1).ge, fun k => by rw [← hr.2, ← hq.2.2]; rfl⟩
    exact hadds.setProc (p := p)
      (r := { q.2.procs p with pagehead := (q.2.procs p).pagehead ++ [q.1] }) rfl
  · refine Holds.bind (findUnused_same _ s) fun q hq => ?_
    have hkern : s.kernMemCurr ≤ (allocPage q.2).2.kernMemCurr := by
      rw [← hq.2.1]
      unfold allocPage
      simp only
      omega
    have hadds : Adds s (setPage q.1 { q.2.pages q.1 with
        status := status, kva := (allocPage q.2).1 } (allocPage q.2).2) :=
      ⟨hkern, fun k => by rw [← hq.2.2]; rfl⟩
    exact hadds.setProc (p := p) (r := { q.2.procs p with
      pagenum := (q.2.procs p).pagenum + 1, pagehead := (q.2.procs p).pagehead ++ [q.1] }) rfl

/-- A process that may have another page gets it from free memory. -/
theorem allocPagetable_above {status : PageStatus}
    (hfull : (s.procs p).pagenum ≠ (s.procs p).upbound) :
    Holds AnyStop (fun r => s.kernMemCurr ≤ (r.2.pages r.1).kva ∧
      (r.2.pages r.1).kva < r.2.kernMemCurr) (allocPagetable p status s) := by
  unfold allocPagetable
  rw [if_neg hfull]
  refine Holds.bind (findUnused_same _ s) fun q hq => ?_
  obtain ⟨-, hkern, -⟩ := hq
  simp only [allocPage, setProc, setPage, if_pos, holds_ok]
  omega

/-- A step down the tables takes a page at most. -/
theorem tableAt_adds (p t i : Nat) (s : State) :
    Holds AnyStop (fun r => Adds s r.2) (tableAt p t i s) := by
  unfold tableAt
  split_ifs
  · exact Adds.refl s
  · exact Holds.bind (allocPagetable_adds p _ s) fun r hr => ⟨hr.kern, hr.pgdir⟩

/-- `alloc_page_helper` takes pages. -/
theorem allocPageHelper_adds (va p : Nat) (status : PageStatus) (s : State) :
    Holds AnyStop (fun r => Adds s r.2) (allocPageHelper va p status s) := by
  unfold allocPageHelper
  refine Holds.bind (tableAt_adds p _ _ s) fun r hr => ?_
  refine Holds.bind (tableAt_adds p _ _ r.2) fun r' hr' => ?_
  obtain ⟨third, s'⟩ := r'
  simp only
  split_ifs
  · exact hr.trans hr'
  · refine Holds.bind (allocPagetable_adds p _ s') fun q hq => ?_
    have hadds := (hr.trans hr').trans hq
    exact ⟨hadds.kern, hadds.pgdir⟩

/-- So does loading an image, by induction on its pages. -/
theorem loadTaskImg_adds (p : Nat) (image : List (Nat × (Nat → Pte))) :
    ∀ s : State, Holds AnyStop (Adds s) (loadTaskImg p image s) := by
  induction image with
  | nil => exact Adds.refl
  | cons page rest ih =>
      intro s
      unfold loadTaskImg
      exact Holds.bind (allocPageHelper_adds page.1 p _ s) fun r hr =>
        (ih _).mono fun s' hs' => hr.trans ⟨hs'.kern, hs'.pgdir⟩

/-- `do_exec` takes pages, the first of them for a root table. -/
theorem doExec_above (p : Nat) (stack args : Nat → Pte) (image : List (Nat × (Nat → Pte)))
    (s : State) :
    Holds AnyStop (fun s' => s.kernMemCurr < s'.kernMemCurr ∧
      s.kernMemCurr ≤ (s'.procs p).pgdir) (doExec p stack args image s) := by
  have hroom : ((setProc p ⟨true, 0, 0, maxPagetableNum, []⟩ s).procs p).pagenum ≠
      ((setProc p ⟨true, 0, 0, maxPagetableNum, []⟩ s).procs p).upbound := by
    simp only [setProc, if_pos]
    decide
  unfold doExec
  refine Holds.bind (allocPagetable_above hroom) fun r hr => ?_
  obtain ⟨hlo, hhi⟩ := hr
  obtain ⟨t, ht⟩ : ∃ t, t = sharePgtable (r.2.pages r.1).kva (clearPgdir (r.2.pages r.1).kva
      (setProc p { r.2.procs p with pgdir := (r.2.pages r.1).kva } r.2)) := ⟨_, rfl⟩
  have hkern : s.kernMemCurr < t.kernMemCurr := by
    rw [ht]
    exact lt_of_le_of_lt hlo hhi
  have hdir : s.kernMemCurr ≤ (t.procs p).pgdir := by
    rw [ht]
    change _ ≤ ((setProc p { r.2.procs p with pgdir := (r.2.pages r.1).kva } r.2).procs p).pgdir
    simp only [setProc, if_pos]
    exact hlo
  have hend {s' : State} (h : Adds t s') :
      s.kernMemCurr < s'.kernMemCurr ∧ s.kernMemCurr ≤ (s'.procs p).pgdir :=
    ⟨hkern.trans_le h.kern, by rw [h.pgdir]; exact hdir⟩
  simp only [← ht]
  refine Holds.bind (allocPagetable_adds p _ t) fun r₂ hr₂ => ?_
  refine Holds.bind (allocPageHelper_adds _ p _ _) fun r₃ hr₃ => ?_
  refine (loadTaskImg_adds p image _).mono fun s' hs' => hend ?_
  have h₂ : Adds t (setContent (r₂.2.pages r₂.1).kva stack r₂.2) := ⟨hr₂.kern, hr₂.pgdir⟩
  have h₃ := h₂.trans hr₃
  have h₄ : Adds t (setContent r₃.1 args r₃.2) := ⟨h₃.kern, h₃.pgdir⟩
  exact h₄.trans hs'

end Mm

namespace Sched

open Outcome IntrusiveList Boot

/-! ## The search for a name -/

/-- `strcmp` of two strings, without the bytes that end them. -/
def strcmp : List UInt8 → List UInt8 → Int
  | a :: as, b :: bs => if a ≠ b then a.toNat - b.toNat else strcmp as bs
  | a :: _, [] => a.toNat
  | [], b :: _ => -b.toNat
  | [], [] => 0

/-- The string that begins at a field. -/
def cstring (field : List UInt8) : List UInt8 := field.takeWhile (· ≠ 0)

/-- The loop of `load_task_img` from `taskid` on, with `left` entries ahead: the index it
ends on, and the entries whose names are read. -/
def searchTask (tasks : Nat → TaskInfo) (name : List UInt8) : Nat → Nat → Nat × List Nat
  | 0, taskid => (taskid, [])
  | left + 1, taskid =>
    if strcmp (cstring (tasks taskid).name) name = 0 then (taskid, [taskid])
    else
      let (found, names) := searchTask tasks name left (taskid + 1)
      (found, taskid :: names)

/-- The entry that is loaded. -/
def taskOf (tasks : Nat → TaskInfo) (name : List UInt8) : Nat :=
  (searchTask tasks name taskMaxnum 0).1

/-- The entries that are read. -/
def entriesRead (tasks : Nat → TaskInfo) (name : List UInt8) : List Nat :=
  (searchTask tasks name taskMaxnum 0).2 ++ [taskOf tasks name]

/-- The pages of an entry, filled from the card. -/
def imageOf (card : TaskInfo → Nat → Nat → Mm.Pte) (t : TaskInfo) : List (Nat × (Nat → Mm.Pte)) :=
  (List.range ((t.memsz + 4095) / 4096)).map fun k => (t.entryAddr + k * 4096, card t k)

/-- What `do_exec` finds in memory and on the card. -/
structure Media where
  tasks : Nat → TaskInfo
  card : TaskInfo → Nat → Nat → Mm.Pte
  stack : Nat → Mm.Pte
  args : Nat → Mm.Pte

def Media.load (m : Media) (name : List UInt8) : Load :=
  ⟨m.stack, m.args, imageOf m.card (m.tasks (taskOf m.tasks name))⟩

/-- The entries of `tasks` that `do_exec` reads: those of `load_task_img`, once the PCB
and its first pages have been taken. -/
def execReads (m : Media) (name : List UInt8) (y : System) : List Nat :=
  match freeSlot y.sched with
  | none => []
  | some i =>
    match Mm.doExec i m.stack m.args [] y.vm.state with
    | .ok _ => entriesRead m.tasks name
    | .error _ => []

/-- `do_exec` with a name; the pid is returned. -/
def execNamed (m : Media) (name : List UInt8) (cpu : Nat) (y : System) :
    Except (Stop ⊕ Mm.Stop) (Int × System) := do
  let (pid, s) ← (doExec cpu y.sched).mapError Sum.inl
  let (vm, childnum) ← (callPages cpu .exec (m.load name) y).mapError Sum.inr
  .ok (pid, ⟨s, vm, childnum⟩)

/-- Of the first `n` entries of `tasks` at most are read, an error is returned, and the
ready queue, the PCBs and the pages are as they were. -/
def FailsCleanly (n : Nat) (m : Media) (name : List UInt8) (cpu : Nat) (y : System) : Prop :=
  (∀ k ∈ execReads m name y, k < n) ∧
  ∃ r z, execNamed m name cpu y = .ok (r, z) ∧ r ≤ 0 ∧
    z.sched.links = y.sched.links ∧ z.sched.pcb = y.sched.pcb ∧
    z.vm.state.kernMemCurr = y.vm.state.kernMemCurr ∧ z.vm.state.pages = y.vm.state.pages

/-- A search that does not stop before `n` ends at `n` or behind. -/
theorem searchTask_ge {tasks : Nat → TaskInfo} {name : List UInt8} {n : Nat}
    (h : ∀ k < n, strcmp (cstring (tasks k).name) name ≠ 0) :
    ∀ left taskid, n ≤ taskid + left → n ≤ (searchTask tasks name left taskid).1 := by
  intro left
  induction left with
  | zero => exact fun taskid hle => hle
  | succ left ih =>
      intro taskid hle
      unfold searchTask
      split_ifs with hfound
      · by_contra hlt
        exact h taskid (Nat.lt_of_not_le hlt) hfound
      · exact ih (taskid + 1) (by omega)

/-- Strings with the same bytes are the only ones that compare equal. -/
theorem strcmp_eq_zero : ∀ {a b : List UInt8}, (∀ x ∈ a, x ≠ 0) → (∀ x ∈ b, x ≠ 0) →
    strcmp a b = 0 → a = b := by
  intro a
  induction a with
  | nil =>
      intro b _ hb h
      cases b with
      | nil => rfl
      | cons y bs =>
          have hy : y.toNat = 0 := by
            simp only [strcmp] at h
            omega
          exact absurd (UInt8.toNat_inj.1 hy) (hb y List.mem_cons_self)
  | cons x as ih =>
      intro b ha hb h
      cases b with
      | nil =>
          have hx : x.toNat = 0 := by
            simp only [strcmp] at h
            omega
          exact absurd (UInt8.toNat_inj.1 hx) (ha x List.mem_cons_self)
      | cons y bs =>
          unfold strcmp at h
          split_ifs at h with hxy
          · have hne : x.toNat = y.toNat := by omega
            exact absurd (UInt8.toNat_inj.1 hne) hxy
          · rw [not_not.1 hxy, ih (fun z hz => ha z (List.mem_cons_of_mem _ hz))
              (fun z hz => hb z (List.mem_cons_of_mem _ hz)) h]

/-- There is no null in a string. -/
theorem cstring_nonzero (field : List UInt8) : ∀ x ∈ cstring field, x ≠ 0 := fun x hx =>
  of_decide_eq_true (List.all_eq_true.1 List.all_takeWhile x hx)

/-- An unknown name is searched behind the entries that are loaded, and one of those is
read. -/
theorem taskOf_unknown {tasks : Nat → TaskInfo} {name : List UInt8} {n : Nat}
    (hn : n ≤ taskMaxnum) (hname : ∀ x ∈ name, x ≠ 0)
    (hunknown : ∀ k < n, cstring (tasks k).name ≠ name) : n ≤ taskOf tasks name := by
  refine searchTask_ge (fun k hk hzero => hunknown k hk ?_) taskMaxnum 0 (by omega)
  exact strcmp_eq_zero (cstring_nonzero _) hname hzero

/-- The slot holds a process that is ready, and it is the last of its queue. -/
theorem newTask_ready (i : Nat) (pid : Int) (mask : Nat) (s : State) :
    Holds AnyStop (fun s' => s'.pcb i = ⟨pid, .ready, 0, mask⟩ ∧
      s'.links.prev .ready = some (.task i)) (newTask i pid mask s) := by
  unfold newTask addQueue listAddTail
  simp only
  cases (setPcb i ⟨pid, .ready, 0, mask⟩ _).links.prev .ready with
  | none => trivial
  | some p =>
      refine ⟨Function.update_self i _ _, ?_⟩
      simp only [listAdd, Links.setPrev, Function.update_self]

/-- What the call leaves behind when it returns: the pid of a process that is ready in
the slot, and less memory. -/
theorem execNamed_takes (m : Media) (name : List UInt8) (cpu : Nat) (y : System) :
    Holds AnyError (fun r => r.1 = y.sched.processId ∧
      (∃ i, freeSlot y.sched = some i ∧ (r.2.sched.pcb i).status = .ready ∧
        r.2.sched.links.prev .ready = some (.task i) ∧
        y.vm.state.kernMemCurr ≤ (r.2.vm.state.procs i).pgdir) ∧
      y.vm.state.kernMemCurr < r.2.vm.state.kernMemCurr) (execNamed m name cpu y) := by
  have hsched : Holds AnyStop (fun r => r.1 = y.sched.processId ∧ ∃ i, freeSlot y.sched = some i ∧
      (r.2.pcb i).status = .ready ∧ r.2.links.prev .ready = some (.task i)) (doExec cpu y.sched) := by
    unfold doExec
    refine Holds.bind (P := fun _ => True) ?_ fun c _ => ?_
    · unfold current
      split <;> trivial
    · split
      · trivial
      · rename_i i hslot
        split_ifs
        · trivial
        · refine Holds.bind (newTask_ready i _ _ _) fun s hs => ⟨rfl, i, hslot, ?_, hs.2⟩
          exact congrArg Pcb.status hs.1
  unfold execNamed
  refine Holds.bind (hsched.mapError fun _ _ => trivial) fun r hr => ?_
  obtain ⟨hpid, i, hslot, hready, hlast⟩ := hr
  refine Holds.bind (P := fun q => y.vm.state.kernMemCurr < q.1.state.kernMemCurr ∧
    y.vm.state.kernMemCurr ≤ (q.1.state.procs i).pgdir) ?_ fun q hq =>
    ⟨hpid, ⟨i, hslot, hready, hlast, hq.2⟩, hq.1⟩
  refine Holds.mapError (E := Mm.AnyStop) ?_ fun _ _ => trivial
  unfold callPages
  rw [hslot]
  exact Holds.bind (Mm.doExec_above i _ _ _ _) fun s hs => hs

/-- A free slot holds no process that is ready. -/
theorem freeSlot_not_ready {s : State} {i : Nat} (h : freeSlot s = some i) :
    (s.pcb i).status ≠ .ready := by
  obtain ⟨-, -, hfree⟩ := findFrom_some h
  intro hready
  rw [hready] at hfree
  cases hfree

/-- `do_exec` never fails cleanly for a name that is not in the table: an entry behind
the loaded ones is read, and where the call returns, it returns the pid of a process that
has been made ready, with pages of its own. -/
theorem unknown_program_starts {n : Nat} (hn : n ≤ taskMaxnum) (m : Media) {name : List UInt8}
    (hname : ∀ x ∈ name, x ≠ 0) (hunknown : ∀ k < n, cstring (m.tasks k).name ≠ name) (cpu : Nat)
    (y : System) :
    ¬FailsCleanly n m name cpu y ∧
    (execReads m name y ≠ [] → ∃ k ∈ execReads m name y, n ≤ k) ∧
    ∀ r z, execNamed m name cpu y = .ok (r, z) → r = y.sched.processId ∧
      z.sched.pcb ≠ y.sched.pcb ∧ y.vm.state.kernMemCurr < z.vm.state.kernMemCurr ∧
      ∃ i, freeSlot y.sched = some i ∧ z.sched.links.prev .ready = some (.task i) := by
  have hreturns (r : Int) (z : System) (hz : execNamed m name cpu y = .ok (r, z)) :
      r = y.sched.processId ∧ z.sched.pcb ≠ y.sched.pcb ∧
      y.vm.state.kernMemCurr < z.vm.state.kernMemCurr ∧
      ∃ i, freeSlot y.sched = some i ∧ z.sched.links.prev .ready = some (.task i) := by
    obtain ⟨hpid, ⟨i, hslot, hready, hlast, -⟩, hkern⟩ := (execNamed_takes m name cpu y).of_ok hz
    refine ⟨hpid, fun heq => freeSlot_not_ready hslot ?_, hkern, i, hslot, hlast⟩
    rw [← heq]
    exact hready
  refine ⟨fun hclean => ?_, fun hread => ?_, hreturns⟩
  rotate_left
  · refine ⟨taskOf m.tasks name, ?_, taskOf_unknown hn hname hunknown⟩
    unfold execReads at hread ⊢
    split at hread
    · exact absurd rfl hread
    · split at hread
      · exact List.mem_append_right _ (List.mem_singleton.2 rfl)
      · exact absurd rfl hread
  obtain ⟨-, r, z, hz, -, -, hpcb, -⟩ := hclean
  exact (hreturns r z hz).2.1 hpcb

/-- A table in which nothing has been loaded but perhaps a program `a` of one page. -/
def noProgram : Media := ⟨fun _ => .zero, fun _ _ => Mm.blank, Mm.blank, Mm.blank⟩

def programA : Media :=
  { noProgram with
    tasks := fun k =>
      if k = 0 then { TaskInfo.zero with memsz := 1, entryAddr := 0x10000, name := [97, 0] }
      else .zero }

/-- `do_exec` with a name, from its two halves. -/
theorem execNamed_of (m : Media) (name : List UInt8) {cpu i : Nat} {y : System} {pid : Int}
    {s : State} {m' : Mm.State} (hs : doExec cpu y.sched = .ok (pid, s))
    (hslot : freeSlot y.sched = some i) (hm : Mm.doExec i m.stack m.args
      (imageOf m.card (m.tasks (taskOf m.tasks name))) y.vm.state = .ok m') :
    execNamed m name cpu y =
      .ok (pid, ⟨s, { y.vm with state := m' }, Function.update y.childnum i 0⟩) := by
  have hv : callPages cpu .exec (m.load name) y =
      .ok ({ y.vm with state := m' }, Function.update y.childnum i 0) := callPages_exec hslot hm
  simp only [execNamed, hs, hv, bind, Except.bind, Except.mapError]

/-- The shell runs, with memory for another process. -/
theorem shell_reached (image : List (Nat × (Nat → Mm.Pte)))
    (hmem : returns (fun _ : Mm.State => True) (run Mm.handle
      [.exec 0 Mm.blank Mm.blank [], .exec 1 Mm.blank Mm.blank image] Mm.bootState) = true) :
    ∃ y₀ y s m', Started y₀ ∧ run System.step [.call 0 (.tick 0 0) noLoad] y₀ = .ok y ∧
      doExec 0 y.sched = .ok (2, s) ∧ freeSlot y.sched = some 1 ∧
      Mm.doExec 1 Mm.blank Mm.blank image y.vm.state = .ok m' := by
  have hsched : returns (fun s : State => freeSlot s = some 1 ∧
      returns (fun r => r.1 = 2) (doExec 0 s) = true) (step 0 (.tick 0 0) initState) = true := by
    decide +kernel
  obtain ⟨s, hs, hslot, hexec⟩ := exists_of_returns hsched
  obtain ⟨⟨pid, s'⟩, hs', hpid⟩ := exists_of_returns hexec
  obtain rfl : pid = 2 := hpid
  obtain ⟨m₂, hall, -⟩ := exists_of_returns hmem
  obtain ⟨m₁, hm₁, hrest⟩ := run_cons hall
  obtain ⟨m₂', hm₂, hrest⟩ := run_cons hrest
  cases hrest
  have hstep : System.step (.call 0 (.tick 0 0) noLoad)
      ⟨initState, ⟨m₁, fun _ => ⟨false, 0, 0, 0⟩, fun _ => 0⟩, fun _ => 0⟩ =
      .ok ⟨s, ⟨m₁, fun _ => ⟨false, 0, 0, 0⟩, fun _ => 0⟩, fun _ => 0⟩ :=
    System.step_of_call hs rfl
  refine ⟨⟨initState, ⟨m₁, fun _ => ⟨false, 0, 0, 0⟩, fun _ => 0⟩, fun _ => 0⟩,
    ⟨s, ⟨m₁, fun _ => ⟨false, 0, 0, 0⟩, fun _ => 0⟩, fun _ => 0⟩, s', m₂,
    ⟨rfl, Mm.bootState, Mm.blank, Mm.blank, [], Mm.bootState_booted, hm₁⟩, ?_, hs', hslot, hm₂⟩
  simp only [run, hstep, bind, Except.bind]

/-- Program `b`, where only `a` has been loaded. -/
theorem unknown_program_starts_b : ∃ y₀ y, Started y₀ ∧
    run System.step [.call 0 (.tick 0 0) noLoad] y₀ = .ok y ∧
    ¬FailsCleanly 1 programA [98] 0 y := by
  obtain ⟨y₀, y, s, m', hstart, hrun, hs, hslot, hm⟩ := shell_reached [] (by decide +kernel)
  have hunknown : ∀ k < 1, cstring (programA.tasks k).name ≠ [98] := by
    intro k hk
    rw [Nat.lt_one_iff.1 hk]
    decide
  have hname : ∀ x ∈ [(98 : UInt8)], x ≠ 0 := by
    intro x hx
    rw [List.mem_singleton.1 hx]
    decide
  exact ⟨y₀, y, hstart, hrun,
    (unknown_program_starts (by decide) programA hname hunknown 0 y).1⟩

/-- With no program loaded, the shell starts the one without a name: entry 0 is not in
use, and its name is empty. -/
theorem nameless_program_starts : ∃ y₀ y z, Started y₀ ∧
    run System.step [.call 0 (.tick 0 0) noLoad] y₀ = .ok y ∧
    execNamed noProgram [] 0 y = .ok (2, z) ∧ ¬FailsCleanly 0 noProgram [] 0 y := by
  obtain ⟨y₀, y, s, m', hstart, hrun, hs, hslot, hm⟩ := shell_reached [] (by decide +kernel)
  have hexec := execNamed_of noProgram [] hs hslot hm
  refine ⟨y₀, y, _, hstart, hrun, hexec, fun hclean => ?_⟩
  obtain ⟨-, r, z, hz, hle, -⟩ := hclean
  rw [hexec] at hz
  cases hz
  exact absurd hle (by decide)

/-! ## `do_taskset_exec` beside `do_exec` -/

/-- `do_exec`, after which the new process gets the mask. -/
def execMasked (m : Media) (name : List UInt8) (cpu mask : Nat) (y : System) :
    Except (Stop ⊕ Mm.Stop) System := do
  let (_, z) ← execNamed m name cpu y
  match freeSlot y.sched with
  | some i => .ok { z with sched := setPcb i { z.sched.pcb i with mask := mask } z.sched }
  | none => .ok z

/-- `do_taskset_exec` with a name. -/
def tasksetNamed (m : Media) (name : List UInt8) (cpu mask : Nat) (y : System) :
    Except (Stop ⊕ Mm.Stop) System :=
  System.step (.tasksetExec cpu mask (m.load name)) y

/-- The page at an address of a process. -/
def mappedPage (va i : Nat) (y : System) : Option Nat :=
  (Mm.pteChecker va (y.vm.state.procs i).pgdir y.vm.state).map fun w =>
    Mm.pageOf (y.vm.state.mem w.1 w.2)

/-- Two states are the same up to the names of the pages that were free before, which are
those from `kern` on. -/
structure AgreeUpTo (ρ : Nat → Nat) (kern : Nat) (t e : System) : Prop where
  injective : Function.Injective ρ
  old : ∀ a < kern, ρ a = a
  sched : t.sched = e.sched
  childnum : t.childnum = e.childnum
  root : ∀ i, ρ (t.vm.state.procs i).pgdir = (e.vm.state.procs i).pgdir
  page : ∀ i va, va < 2 ^ 39 → (mappedPage va i t).map ρ = mappedPage va i e
  content : ∀ i va a, va < 2 ^ 39 → mappedPage va i t = some a →
    ∀ j < 512, e.vm.state.mem (ρ a) j = t.vm.state.mem a j

/-- No root table changes, and a program with pages is not loaded. -/
theorem tasksetNamed_keeps (m : Media) (name : List UInt8) (cpu mask : Nat) (y : System) :
    Holds AnyError (fun t => t.vm.state.procs = y.vm.state.procs ∧ (m.load name).image = [])
      (tasksetNamed m name cpu mask y) := by
  have hany {α : Type} (x : Except (Stop ⊕ Mm.Stop) α) : Holds AnyError (fun _ => True) x :=
    .any (fun _ => trivial) x
  unfold tasksetNamed
  simp only [System.step]
  refine Holds.bind (hany _) fun _ _ => Holds.bind (hany _) fun s _ => ?_
  refine Holds.bind (P := fun t => t.procs = y.vm.state.procs ∧ (m.load name).image = []) ?_
    fun t ht => ⟨ht.1, ht.2⟩
  refine Holds.mapError (E := Mm.AnyStop) ?_ fun _ _ => trivial
  unfold Mm.doTasksetExec
  split_ifs with himage
  · trivial
  · exact ⟨rfl, not_not.1 himage⟩
  · exact ⟨rfl, not_not.1 himage⟩

/-- The new process has a root table that was taken during the call. -/
theorem execMasked_above (m : Media) (name : List UInt8) (cpu mask : Nat) (y : System) :
    Holds AnyError (fun e => ∃ i, y.vm.state.kernMemCurr ≤ (e.vm.state.procs i).pgdir)
      (execMasked m name cpu mask y) := by
  unfold execMasked
  refine Holds.bind (execNamed_takes m name cpu y) fun r hr => ?_
  obtain ⟨-, ⟨i, hslot, -, -, hdir⟩, -⟩ := hr
  rw [hslot]
  exact ⟨i, hdir⟩

/-- Wherever `do_exec` returns, `do_taskset_exec` does not leave the same state: the new
process keeps the root table its slot had, and a program with pages is not loaded. -/
theorem taskset_never_agrees {y₀ y e : System} (hstart : Started y₀) {es : List Entry}
    (hrun : run System.step es y₀ = .ok y) {m : Media} {name : List UInt8} {cpu mask : Nat}
    (hexec : execMasked m name cpu mask y = .ok e) :
    (¬∃ t ρ, tasksetNamed m name cpu mask y = .ok t ∧ AgreeUpTo ρ y.vm.state.kernMemCurr t e) ∧
    ((m.load name).image ≠ [] → ∀ t, tasksetNamed m name cpu mask y ≠ .ok t) := by
  have hy : Sound y := run_invariant (I := Sound) (C := fun _ _ => True)
    (fun y e _ h _ hz => (System.step_sound h e).of_ok hz) es y₀ y hstart.sound
    (allSteps_true es y₀) hrun
  constructor
  · rintro ⟨t, ρ, ht, hagree⟩
    obtain ⟨i, hdir⟩ := (execMasked_above m name cpu mask y).of_ok hexec
    have hprocs := ((tasksetNamed_keeps m name cpu mask y).of_ok ht).1
    have hroot := hagree.root i
    have hold : (y.vm.state.procs i).pgdir < y.vm.state.kernMemCurr := by
      have hlow := hy.ledger.room.1
      unfold Mm.freememKernel at hlow
      rcases hy.ledger.dir i with h0 | h0
      · omega
      · exact h0.2
    rw [hprocs, hagree.old _ hold] at hroot
    omega
  · intro himage t ht
    exact himage ((tasksetNamed_keeps m name cpu mask y).of_ok ht).2

theorem execMasked_of (mask : Nat) {m : Media} {name : List UInt8} {cpu i : Nat} {y z : System} {pid : Int}
    (hslot : freeSlot y.sched = some i) (hz : execNamed m name cpu y = .ok (pid, z)) :
    execMasked m name cpu mask y =
      .ok { z with sched := setPcb i { z.sched.pcb i with mask := mask } z.sched } := by
  simp only [execMasked, hz, hslot, bind, Except.bind]

/-- The program that has no pages, on the other core. -/
theorem taskset_never_agrees_nameless : ∃ y e, execMasked noProgram [] 0 2 y = .ok e ∧
    ¬∃ t ρ, tasksetNamed noProgram [] 0 2 y = .ok t ∧ AgreeUpTo ρ y.vm.state.kernMemCurr t e := by
  obtain ⟨y₀, y, s, m', hstart, hrun, hs, hslot, hm⟩ := shell_reached [] (by decide +kernel)
  have hexec := execMasked_of 2 hslot
    (execNamed_of noProgram [] hs hslot hm)
  exact ⟨y, _, hexec, (taskset_never_agrees hstart hrun hexec).1⟩

/-- The shell can start program `a`, but not for one core. -/
theorem taskset_loads_nothing : ∃ y₀ y e, Started y₀ ∧
    run System.step [.call 0 (.tick 0 0) noLoad] y₀ = .ok y ∧
    execMasked programA [97] 0 2 y = .ok e ∧
    ¬∃ t ρ, tasksetNamed programA [97] 0 2 y = .ok t ∧
      AgreeUpTo ρ y.vm.state.kernMemCurr t e := by
  obtain ⟨y₀, y, s, m', hstart, hrun, hs, hslot, hm⟩ :=
    shell_reached [(0x10000, Mm.blank)] (by decide +kernel)
  have hexec := execMasked_of 2 hslot
    (execNamed_of programA [97] hs hslot hm)
  refine ⟨y₀, y, _, hstart, hrun, hexec, ?_⟩
  rintro ⟨t, ρ, ht, -⟩
  have himage := ((tasksetNamed_keeps programA [97] 0 2 y).of_ok ht).2
  exact absurd (congrArg List.length himage) (by decide)

end Sched
