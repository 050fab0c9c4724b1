import OslabRiscv.Sched.Switching

/-!
# Sixty-five thousand pids

`do_taskset_exec` takes no page descriptor, so pids can be given out without end: a
task that may run on no core is started and killed again, over and over.  The process
with pid 65536 then runs with a mode that is not Sv39.
-/

namespace Sched

open IntrusiveList Outcome

/-! ## Starting a task on an empty ready queue -/

/-- The shell runs on core 0, core 1 and all queues are idle, and the task in slot 1
has ended. -/
structure Idle (n : Int) (s : State) : Prop where
  core : s.coreRunning 0 = .task 0
  second : s.coreRunning 1 = .idle
  shell : (s.pcb 0).pid = 1 ∧ (s.pcb 0).mask = 3
  slot : (s.pcb 1).status = .exited
  count : s.processId = n
  ready : s.links.next .ready = some .ready ∧ s.links.prev .ready = some .ready
  sleep : s.links.next .sleep = some .sleep
  locks : ∀ k < lockNum, (s.mlocks k).owner = -1

/-- A task was started in slot 1 and is the only one in the ready queue. -/
structure Waiting (pid : Int) (mask : Nat) (s s' : State) : Prop where
  pcb : s'.pcb 1 = ⟨pid, .ready, 0, mask⟩
  other : s'.pcb 0 = s.pcb 0
  core : s'.coreRunning = s.coreRunning
  count : s'.processId = s.processId
  ready : s'.links.next .ready = some (.task 1) ∧ s'.links.prev .ready = some (.task 1)
  task : s'.links.next (.task 1) = some .ready ∧ s'.links.prev (.task 1) = some .ready
  wait : s'.links.next (.wait 1) = some (.wait 1)
  sleep : s'.links.next .sleep = s.links.next .sleep
  locks : s'.mlocks = s.mlocks

theorem newTask_waiting {s : State} (hready : s.links.prev .ready = some .ready) (pid : Int)
    (mask : Nat) : ∃ s', newTask 1 pid mask s = .ok s' ∧ Waiting pid mask s s' := by
  obtain ⟨l, hl⟩ : ∃ l, l = initListHead (.wait 1)
      ((s.links.setNext (.task 1) none).setPrev (.task 1) none) := ⟨_, rfl⟩
  have hprev : l.prev .ready = some .ready := by
    rw [hl]
    simp [initListHead, Links.setNext, Links.setPrev, hready]
  refine ⟨{ setPcb 1 ⟨pid, .ready, 0, mask⟩ { setStatus 1 .ready s with links := l } with
    links := listAdd .ready (.task 1) .ready l }, ?_, ?_⟩
  · have hset : (setStatus 1 .ready s).links = s.links := rfl
    unfold newTask addQueue listAddTail
    simp only [hset, ← hl]
    simp only [setPcb, hprev, bind, Except.bind]
  · constructor
    · simp [setPcb]
    · simp [setPcb, setStatus]
    · rfl
    · rfl
    · simp [listAdd, Links.setNext, Links.setPrev]
    · simp [listAdd, Links.setNext, Links.setPrev]
    · simp [listAdd, Links.setNext, Links.setPrev, hl, initListHead]
    · simp [listAdd, Links.setNext, Links.setPrev, hl, initListHead]
    · rfl

theorem Idle.freeSlot {n : Int} {s : State} (h : Idle n s) : freeSlot s = some 1 := by
  have hst := h.slot
  simp [Sched.freeSlot, findFrom, numMaxTask, hst]

theorem Idle.exec {n : Int} {s : State} (h : Idle n s) (hn : n < 2 ^ 31 - 1) :
    ∃ s', step 0 .exec s = .ok s' ∧ Waiting n 3 { s with processId := n + 1 } s' := by
  have hne : ¬ n = 2 ^ 31 - 1 := by omega
  obtain ⟨s', hnew, hw⟩ := newTask_waiting (s := { s with processId := n + 1 }) h.ready.2 n 3
  refine ⟨s', ?_, hw⟩
  unfold step handle doExec
  simp only [h.core, current, h.freeSlot, if_neg hne, h.shell.2, h.count, hnew, bind, Except.bind]
  exact if_neg nofun

/-! ## One pid after the other -/

theorem Idle.taskset {n : Int} {s : State} (h : Idle n s) (hn : n < 2 ^ 31 - 1) :
    ∃ s', doTasksetExec 0 s = .ok s' ∧ Waiting n 0 { s with processId := n + 1 } s' := by
  have hne : ¬ n = 2 ^ 31 - 1 := by omega
  obtain ⟨s', hnew, hw⟩ := newTask_waiting (s := { s with processId := n + 1 }) h.ready.2 n 0
  refine ⟨s', ?_, hw⟩
  unfold doTasksetExec
  simp only [h.freeSlot, if_neg hne, h.count, hnew]

/-- The task is killed before it has run. -/
theorem Waiting.kill {n : Int} {s s₁ : State} (h : Idle n s) (hn : 3 ≤ n)
    (hw : Waiting n 0 { s with processId := n + 1 } s₁) :
    ∃ s₂, step 0 (.kill n 0) s₁ = .ok s₂ ∧ Idle (n + 1) s₂ := by
  have hpid : (s₁.pcb 0).pid = 1 := (congrArg Pcb.pid hw.other).trans h.shell.1
  have hfind : findPid n s₁ = some 1 := by
    have hne : ¬ (1 : Int) = n := by omega
    simp [findPid, findFrom, numMaxTask, hpid, hne, hw.pcb]
  have hdrain : drainLoop Links.next 1 rounds s₁ = .ok s₁ := by
    have hempty : listIsEmpty (.wait 1) s₁.links = true := decide_eq_true hw.wait
    change drainLoop Links.next 1 (numMaxTask + 1) s₁ = _
    unfold drainLoop
    rw [if_pos hempty]
  obtain ⟨s₂, hs₂⟩ : ∃ s₂, s₂ = setPcb 1 { s₁.pcb 1 with pid := 0 } s₁ := ⟨_, rfl⟩
  have hrelease : releasePcbLock n lockNum 0 s₂ = .ok s₂ := by
    refine releasePcbLock_none lockNum 0 (by omega) fun k hk => ?_
    rw [hs₂]
    change (s₁.mlocks k).owner ≠ n
    rw [hw.locks]
    change (s.mlocks k).owner ≠ n
    rw [h.locks k hk]
    omega
  have hcore : s₁.coreRunning 0 = .task 0 := by rw [hw.core]; exact h.core
  have hstatus : (s₂.pcb 1).status = .ready := by
    rw [hs₂]
    simp [setPcb, hw.pcb]
  refine ⟨setStatus 1 .exited (delQueue 1 s₂), ?_, ?_⟩
  · unfold step handle doKill
    simp only [hcore, hfind, hdrain, bind, Except.bind]
    simp only [← hs₂, hrelease, hstatus]
    simp
  · have hlinks : s₂.links = s₁.links := by rw [hs₂]; rfl
    constructor
    · rw [hs₂]
      exact hcore
    · rw [hs₂]
      change s₁.coreRunning 1 = _
      rw [hw.core]
      exact h.second
    · rw [hs₂]
      simp only [setStatus, delQueue, setPcb, ne_eq, zero_ne_one, not_false_eq_true,
        Function.update_of_ne]
      rw [hw.other]
      exact h.shell
    · simp [setStatus, setPcb]
    · rw [hs₂]
      exact hw.count
    · have hp : s₂.links.prev (.task 1) = some .ready := by rw [hlinks]; exact hw.task.2
      have hn : s₂.links.next (.task 1) = some .ready := by rw [hlinks]; exact hw.task.1
      change (listDel (.task 1) s₂.links).next .ready = _ ∧ (listDel (.task 1) s₂.links).prev .ready = _
      simp [listDel, hp, hn, Links.setNext, Links.setPrev]
    · have hp : s₂.links.prev (.task 1) = some .ready := by rw [hlinks]; exact hw.task.2
      have hn : s₂.links.next (.task 1) = some .ready := by rw [hlinks]; exact hw.task.1
      have hsleep : s₂.links.next .sleep = some .sleep := by
        rw [hlinks, hw.sleep]
        exact h.sleep
      change (listDel (.task 1) s₂.links).next .sleep = _
      simp [listDel, hp, hn, Links.setNext, Links.setPrev, hsleep]
    · intro k hk
      rw [hs₂]
      change (s₁.mlocks k).owner = -1
      rw [hw.locks]
      exact h.locks k hk

/-- The second core takes the task that waits. -/
theorem Waiting.tick {n m : Int} {s s₁ : State} (h : Idle n s)
    (hw : Waiting m 3 { s with processId := n + 1 } s₁) :
    ∃ s₂, step 1 (.tick 0 0) s₁ = .ok s₂ ∧ s₁.coreRunning 1 = .idle ∧
      s₂.coreRunning 1 = .task 1 ∧ (s₂.pcb 1).pid = m := by
  have hcore : s₁.coreRunning 1 = .idle := by rw [hw.core]; exact h.second
  have hsleep : checkSleeping 0 s₁ = .ok s₁ := by
    have hn : s₁.links.next .sleep = some .sleep := hw.sleep.trans h.sleep
    unfold checkSleeping
    rw [hn]
    rfl
  have hempty : listIsEmpty .ready s₁.links = false := by
    simp [listIsEmpty, hw.ready.1]
  have hpick : pickLoop 1 rounds (s₁.links.next .ready) s₁ = .ok (some 1, delQueue 1 s₁) := by
    rw [hw.ready.1]
    have hmask : (s₁.pcb 1).mask.testBit 1 = true := by
      rw [hw.pcb]
      change Nat.testBit 3 1 = true
      decide
    change pickLoop 1 (numMaxTask + 1) (some (.task 1)) s₁ = _
    unfold pickLoop
    exact if_pos hmask
  have hschedule : doScheduler 1 0 s₁ = .ok (dispatch 1 (some 1) (delQueue 1 s₁)) := by
    unfold doScheduler
    simp only [hsleep, hcore, requeue, hempty, hpick, bind, Except.bind]
    rfl
  refine ⟨dispatch 1 (some 1) (delQueue 1 s₁), ?_, hcore, ?_, ?_⟩
  · unfold step
    rw [if_neg (fun hc => by cases hc.2)]
    unfold handle handleIrqTimer
    simp only [hsleep, bind, Except.bind]
    exact hschedule
  · simp [dispatch]
  · simp [dispatch, setStatus, setPcb, delQueue, hw.pcb]

/-! ## The system -/

/-- An image without pages, as an empty entry of the table has it. -/
def noLoad : Load := ⟨Mm.blank, Mm.blank, []⟩

theorem System.step_of_call {cpu : Nat} {c : Call} {load : Load} {y : System} {s : State}
    {vm : Mm.Vm} {childnum : Nat → Nat} (hs : Sched.step cpu c y.sched = .ok s)
    (hv : callPages cpu c load y = .ok (vm, childnum)) :
    System.step (.call cpu c load) y = .ok ⟨s, vm, childnum⟩ := by
  simp only [System.step, hs, hv, bind, Except.bind, Except.mapError]

theorem callPages_exec {cpu i : Nat} {load : Load} {y : System} {m : Mm.State}
    (hslot : freeSlot y.sched = some i)
    (hm : Mm.doExec i load.stack load.args load.image y.vm.state = .ok m) :
    callPages cpu .exec load y = .ok ({ y.vm with state := m }, Function.update y.childnum i 0) := by
  simp only [callPages, hslot, hm, bind, Except.bind]

/-- Start a task that may run on no core and kill it, `k` times. -/
def spend : Nat → Int → List Entry
  | 0, _ => []
  | k + 1, n => .tasksetExec 0 0 noLoad :: .call 0 (.kill n 0) noLoad :: spend k (n + 1)

/-- Each round costs a pid and nothing else. -/
theorem spend_run (k : Nat) : ∀ {n : Int} {y : System}, Idle n y.sched → 3 ≤ n →
    n + k < 2 ^ 31 → ∃ s, run System.step (spend k n) y = .ok { y with sched := s } ∧
      Idle (n + k) s := by
  induction k with
  | zero =>
      intro n y h _ _
      refine ⟨y.sched, rfl, ?_⟩
      rw [show n + ((0 : Nat) : Int) = n by omega]
      exact h
  | succ k ih =>
      intro n y h hn hk
      obtain ⟨s₁, hs₁, hw⟩ := h.taskset (by omega)
      obtain ⟨s₂, hs₂, hidle⟩ := hw.kill h hn
      have hcurrent : current 0 y.sched = .ok 0 := current_eq h.core
      have hunused : unusedSlot y.sched = false := by
        unfold unusedSlot
        rw [h.freeSlot]
        change decide ((y.sched.pcb 1).status = .available) = false
        rw [h.slot]
        rfl
      have hstep₁ : System.step (.tasksetExec 0 0 noLoad) y = .ok { y with sched := s₁ } := by
        simp only [System.step, hcurrent, hs₁, hunused, bind, Except.bind, Except.mapError]
        rfl
      have hstep₂ : System.step (.call 0 (.kill n 0) noLoad) { y with sched := s₁ } =
          .ok { y with sched := s₂ } := System.step_of_call hs₂ rfl
      obtain ⟨s, hrun, hend⟩ := ih (y := { y with sched := s₂ }) hidle (by omega) (by omega)
      refine ⟨s, ?_, ?_⟩
      · simp only [spend, run, hstep₁, bind, Except.bind]
        simp only [hstep₂]
        exact hrun
      · rw [show n + ((k + 1 : Nat) : Int) = n + 1 + k by omega]
        exact hend

/-- The shell runs, and a task has come and gone. -/
theorem idle_reached : ∃ s₁ s₂ s₃, step 0 (.tick 0 0) initState = .ok s₁ ∧
    step 0 .exec s₁ = .ok s₂ ∧ step 0 (.kill 2 0) s₂ = .ok s₃ ∧ freeSlot s₁ = some 1 ∧ Idle 3 s₃ := by
  have hrun : returns (fun s : State => (s.coreRunning 0 = .task 0 ∧ s.coreRunning 1 = .idle ∧
      (s.pcb 0).pid = 1 ∧ (s.pcb 0).mask = 3 ∧ (s.pcb 1).status = .exited ∧ s.processId = 3) ∧
      s.links.next .ready = some .ready ∧ s.links.prev .ready = some .ready ∧
      s.links.next .sleep = some .sleep ∧ ∀ k < lockNum, (s.mlocks k).owner = -1)
      (run (step 0) [.tick 0 0, .exec, .kill 2 0] initState) = true := by decide +kernel
  have hfree : returns (fun s : State => freeSlot s = some 1) (step 0 (.tick 0 0) initState) = true := by
    decide +kernel
  obtain ⟨s₃, hall, ⟨h₁, h₂, h₃, h₄, h₅, h₆⟩, h₇, h₈, h₉, h₁₀⟩ := exists_of_returns hrun
  obtain ⟨s₁, hs₁, hrest⟩ := run_cons hall
  obtain ⟨s₂, hs₂, hrest⟩ := run_cons hrest
  obtain ⟨s₃', hs₃, hrest⟩ := run_cons hrest
  cases hrest
  obtain ⟨t, ht, hslot⟩ := exists_of_returns hfree
  rw [hs₁] at ht
  cases ht
  exact ⟨s₁, s₂, s₃, hs₁, hs₂, hs₃, hslot, h₁, h₂, ⟨h₃, h₄⟩, h₅, h₆, ⟨h₇, h₈⟩, h₉, h₁₀⟩

/-- The lowest bit that does not fit changes the mode. -/
theorem setSatp_wraps {ppn : Nat} (hppn : ppn < 2 ^ 44) :
    setSatp satpModeSv39 65536 ppn / 2 ^ 60 = 9 := by
  have hmode : 8 ||| 65536 / 2 ^ 16 = 9 := by decide
  rw [setSatp_eq hppn, hmode]
  omega

/-- The shell starts a process and kills it, uses up the pids to 65535, and starts
another process. -/
def overflow : List Entry :=
  .call 0 (.tick 0 0) noLoad :: .call 0 .exec noLoad :: .call 0 (.kill 2 0) noLoad ::
    (spend 65533 3 ++ [.call 0 .exec noLoad])

/-- When the other core then takes the process, the mode is 9. -/
theorem satp_not_sv39 : ∃ y z₁ z₂ v, Started y ∧ run System.step overflow y = .ok z₁ ∧
    System.step (.call 1 (.tick 0 0) noLoad) z₁ = .ok z₂ ∧ satpWritten 1 z₁ z₂ = some v ∧
    v / 2 ^ 60 = 9 := by
  -- The memory: the shell is loaded, and a process twice into slot 1.
  have hmem : returns (fun m : Mm.State => (m.procs 1).pgdir ≠ Mm.pa2kva Mm.pgdirPa ∧
      Mm.kva2pa (m.procs 1).pgdir / 4096 < 2 ^ 44) (run Mm.handle
        [.exec 0 Mm.blank Mm.blank [(0x10000, Mm.blank)], .exec 1 Mm.blank Mm.blank [],
          .exec 1 Mm.blank Mm.blank []] Mm.bootState) = true := by decide +kernel
  obtain ⟨m₃, hall, hpgdir, hppn⟩ := exists_of_returns hmem
  obtain ⟨m₁, hm₁, hrest⟩ := run_cons hall
  obtain ⟨m₂, hm₂, hrest⟩ := run_cons hrest
  obtain ⟨m₃', hm₃, hrest⟩ := run_cons hrest
  cases hrest
  obtain ⟨s₁, s₂, s₃, hs₁, hs₂, hs₃, hslot, hidle⟩ := idle_reached
  obtain ⟨y, hy⟩ : ∃ y : System, y = ⟨initState, ⟨m₁, fun _ => ⟨false, 0, 0, 0⟩, fun _ => 0⟩,
    fun _ => 0⟩ := ⟨_, rfl⟩
  have hstart : Started y := by
    rw [hy]
    exact ⟨rfl, Mm.bootState, Mm.blank, Mm.blank, _, Mm.bootState_booted, hm₁⟩
  -- The shell starts a process and kills it.
  have hrun₁ : System.step (.call 0 (.tick 0 0) noLoad) y = .ok { y with sched := s₁ } :=
    System.step_of_call (by rw [hy]; exact hs₁) rfl
  obtain ⟨y₂, hy₂⟩ : ∃ y₂ : System, y₂ = ⟨s₂, { y.vm with state := m₂ },
    Function.update y.childnum 1 0⟩ := ⟨_, rfl⟩
  have hrun₂ : System.step (.call 0 .exec noLoad) { y with sched := s₁ } = .ok y₂ := by
    rw [hy₂]
    exact System.step_of_call hs₂ (callPages_exec hslot (by rw [hy]; exact hm₂))
  have hrun₃ : System.step (.call 0 (.kill 2 0) noLoad) y₂ = .ok { y₂ with sched := s₃ } :=
    System.step_of_call (by rw [hy₂]; exact hs₃) rfl
  -- Then the pids are used up, and a process is started.
  obtain ⟨s₄, hspend, hidle₄⟩ := spend_run 65533 (y := { y₂ with sched := s₃ }) hidle le_rfl
    (by decide)
  have hcount : (3 : Int) + (65533 : Nat) = 65536 := by decide
  rw [hcount] at hidle₄
  obtain ⟨s₅, hs₅, hw⟩ := hidle₄.exec (by decide)
  obtain ⟨z₁, hz₁⟩ : ∃ z₁ : System, z₁ = ⟨s₅, { y₂.vm with state := m₃ },
    Function.update y₂.childnum 1 0⟩ := ⟨_, rfl⟩
  have hrun₅ : System.step (.call 0 .exec noLoad) { y₂ with sched := s₄ } = .ok z₁ := by
    rw [hz₁]
    exact System.step_of_call hs₅ (callPages_exec hidle₄.freeSlot (by rw [hy₂]; exact hm₃))
  -- The other core takes it.
  obtain ⟨s₆, hs₆, hlast, hnext, hpid⟩ := hw.tick hidle₄
  have hrun₆ : System.step (.call 1 (.tick 0 0) noLoad) z₁ = .ok { z₁ with sched := s₆ } :=
    System.step_of_call (by rw [hz₁]; exact hs₆) rfl
  refine ⟨y, z₁, { z₁ with sched := s₆ },
    setSatp satpModeSv39 65536 (Mm.kva2pa (m₃.procs 1).pgdir / 4096), hstart, ?_, hrun₆, ?_, ?_⟩
  · simp only [overflow, run, hrun₁, bind, Except.bind]
    simp only [hrun₂, hrun₃]
    rw [run_append_ok hspend]
    simp only [run, hrun₅, bind, Except.bind]
  · unfold satpWritten
    have hz : z₁.sched.coreRunning 1 = .idle := by rw [hz₁]; exact hlast
    simp only [hz, hnext]
    have hvm : z₁.vm.state = m₃ := by rw [hz₁]
    have hdir : pgdirOf { z₁ with sched := s₆ } (.task 1) = (m₃.procs 1).pgdir := by rw [← hvm]; rfl
    have hpid' : pidOf { z₁ with sched := s₆ } (.task 1) = 65536 := hpid
    have hidle : pgdirOf { z₁ with sched := s₆ } .idle = Mm.pa2kva Mm.pgdirPa := rfl
    have hasid : ((65536 : Int) % 2 ^ 32).toNat = 65536 := by decide
    rw [hdir, hpid', hidle, if_pos hpgdir.symm, hasid]
  · exact setSatp_wraps hppn

/-- The run in which a process is started and switched to. -/
theorem satp_right_shell : ∃ y, Started y ∧
    (AllSteps System.step SwitchRight [.call 0 (.tick 0 0) noLoad] y ↔
      AllSteps System.step SwitchFits [.call 0 (.tick 0 0) noLoad] y) := by
  have hmem : returns (fun _ : Mm.State => True) (run Mm.handle
      [.exec 0 Mm.blank Mm.blank [(0x10000, Mm.blank)]] Mm.bootState) = true := by decide +kernel
  obtain ⟨m₁, hall, -⟩ := exists_of_returns hmem
  obtain ⟨m, hm, hrest⟩ := run_cons hall
  cases hrest
  have hstart : Started ⟨initState, ⟨m₁, fun _ => ⟨false, 0, 0, 0⟩, fun _ => 0⟩, fun _ => 0⟩ :=
    ⟨rfl, Mm.bootState, Mm.blank, Mm.blank, _, Mm.bootState_booted, hm⟩
  exact ⟨_, hstart, satp_right_iff hstart _⟩

end Sched
