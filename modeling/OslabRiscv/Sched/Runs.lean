import OslabRiscv.Sched.Ending
import OslabRiscv.Lib.Outcome

/-!
# Runs of the machine

A `Call` is one kernel entry: a system call of the task a core runs, or a timer
interrupt.  `Legal` is what a call needs in order not to stop the kernel: a
task to make it, arguments in range, and a free PCB or mutex where one is
taken.  The legal calls are those that return; they leave the state settled, on
any number of cores, as long as no task is killed while it runs on another core.
-/

namespace Sched

open IntrusiveList Outcome

inductive Call
  | exec
  | threadCreate
  | exit (now : Nat)
  | kill (pid : Int) (now : Nat)
  | waitpid (pid : Int) (now : Nat)
  | sleep (sleepTime now now' : Nat)
  | schedule (now : Nat)
  | tick (now now' : Nat)
  | lockInit (key : Int)
  | acquire (k now : Nat)
  | release (k : Nat)
  | barrierInit (key goal : Int)
  | barrierWait (k now : Nat)
  | barrierDestroy (k : Nat)
  deriving DecidableEq, Repr

/-- `handle_irq_timer`. -/
def handleIrqTimer (cpu now now' : Nat) (s : State) : Except Stop State := do
  let s ← checkSleeping now s
  doScheduler cpu now' s

/-- What a kernel entry runs; results other than the state are dropped. -/
def handle (cpu : Nat) : Call → State → Except Stop State
  | .exec, s => do
    let (_, s) ← doExec cpu s
    .ok s
  | .threadCreate, s => doThreadCreate cpu s
  | .exit now, s => doExit cpu now s
  | .kill pid now, s => do
    let (_, s) ← doKill cpu pid now s
    .ok s
  | .waitpid pid now, s => do
    let (_, s) ← doWaitpid cpu pid now s
    .ok s
  | .sleep sleepTime now now', s => doSleep cpu sleepTime now now' s
  | .schedule now, s => doScheduler cpu now s
  | .tick now now', s => handleIrqTimer cpu now now' s
  | .lockInit key, s => do
    let (_, s) ← doMutexLockInit key s
    .ok s
  | .acquire k now, s => doMutexLockAcquire cpu k now s
  | .release k, s => doMutexLockRelease k s
  | .barrierInit key goal, s => .ok (doBarrierInit key goal s).2
  | .barrierWait k now, s => doBarrierWait cpu k now s
  | .barrierDestroy k, s => doBarrierDestroy k s

/-- The scheduler also runs from the idle PCB. -/
def Call.fromIdle : Call → Bool
  | .schedule _ | .tick _ _ => true
  | _ => false

/-- One kernel entry on a core.  The idle PCB makes no system call. -/
def step (cpu : Nat) (c : Call) (s : State) : Except Stop State :=
  if s.coreRunning cpu = .idle ∧ c.fromIdle = false then .error .undefined else handle cpu c s

/-- The slot the pid is found in has been used. -/
def InUse (pid : Int) (s : State) : Prop :=
  ∀ i, findPid pid s = some i → (s.pcb i).status ≠ .available

/-- The arguments of the call and the tables let it return. -/
def ArgsOk (s : State) : Call → Prop
  | .exec => freeSlot s ≠ none ∧ s.processId ≠ 2 ^ 31 - 1
  | .threadCreate => freeSlot s ≠ none
  | .kill pid _ => 0 < pid ∨ InUse pid s
  | .lockInit key => lockInitLoop s key lockNum 0 ≠ none
  | .acquire k _ => k < lockNum
  | .release k => k < lockNum
  | .barrierWait k _ => k < barrierNum ∧ ((s.barriers k).num = 1 ∨ (s.barriers k).num ≠ -2 ^ 31)
  | .barrierDestroy k => k < barrierNum
  | _ => True

/-- The call does not stop the kernel. -/
def Legal (cpu : Nat) (s : State) (c : Call) : Prop :=
  (s.coreRunning cpu ≠ .idle ∨ c.fromIdle = true) ∧ ArgsOk s c

/-- A condition on the task a core runs, if any. -/
instance decidableForallTask (w : Who) (P : Nat → Prop) [DecidablePred P] :
    Decidable (∀ i, w = .task i → P i) := by
  cases w with
  | idle => exact isTrue (fun i hi => by cases hi)
  | task i => exact decidable_of_iff (P i) ⟨fun h j hj => Who.task.inj hj ▸ h, fun h => h i rfl⟩

/-- A condition on what a search found, if anything. -/
instance decidableForallFound (o : Option Nat) (P : Nat → Prop) [DecidablePred P] :
    Decidable (∀ i, o = some i → P i) :=
  inferInstanceAs (Decidable (∀ i ∈ o, P i))

instance InUse.decidable (pid : Int) (s : State) : Decidable (InUse pid s) :=
  inferInstanceAs (Decidable (∀ i, findPid pid s = some i → (s.pcb i).status ≠ .available))

instance ArgsOk.decidable (s : State) : ∀ c, Decidable (ArgsOk s c)
  | .exec => (inferInstance : Decidable (freeSlot s ≠ none ∧ s.processId ≠ 2 ^ 31 - 1))
  | .threadCreate => (inferInstance : Decidable (freeSlot s ≠ none))
  | .kill pid _ => (inferInstance : Decidable (0 < pid ∨ InUse pid s))
  | .lockInit key => (inferInstance : Decidable (lockInitLoop s key lockNum 0 ≠ none))
  | .acquire k _ => (inferInstance : Decidable (k < lockNum))
  | .release k => (inferInstance : Decidable (k < lockNum))
  | .barrierWait k _ => (inferInstance : Decidable (k < barrierNum ∧
      ((s.barriers k).num = 1 ∨ (s.barriers k).num ≠ -2 ^ 31)))
  | .barrierDestroy k => (inferInstance : Decidable (k < barrierNum))
  | .exit _ | .waitpid _ _ | .sleep _ _ _ | .schedule _ | .tick _ _ | .barrierInit _ _ => instDecidableTrue

instance Legal.decidable (cpu : Nat) (s : State) (c : Call) : Decidable (Legal cpu s c) :=
  inferInstanceAs (Decidable (_ ∧ _))

/-- The call kills no task that another core runs. -/
def KillsOwn (n cpu : Nat) (s : State) : Call → Prop
  | .kill pid _ => ∀ i, findPid pid s = some i → ∀ c, c < n → s.coreRunning c = .task i → c = cpu
  | _ => True

section Specs

variable {n cpu : Nat} {s : State} {q : Node → List Nat} {h : Node} {i : Nat}

/-- What the core runs. -/
theorem current_eq (hcur : s.coreRunning cpu = .task i) : current cpu s = .ok i := by
  unfold current
  rw [hcur]

/-! ## One lemma for each call -/

/-- A new task: its slot was not in use. -/
structure Starts (i : Nat) (pid : Int) (s : State) (q : Node → List Nat) (s' : State)
    (q' : Node → List Nat) : Prop where
  slot : i < numMaxTask ∧ ¬ Live s i
  queues : q' = Function.update q .ready (q .ready ++ [i])
  pcb : ∃ mask, s'.pcb = Function.update s.pcb i ⟨pid, .ready, 0, mask⟩
  mlocks : s'.mlocks = s.mlocks
  barriers : s'.barriers = s.barriers

/-- A new task has a pid of its own. -/
theorem Starts.pids {pid : Int} {s' : State} {q' : Node → List Nat} (hst : Starts i pid s q s' q')
    (hp : Pids s) (hpid : 0 < pid) (hproc : 0 < s'.processId) : Pids s' := by
  obtain ⟨mask, hpcb⟩ := hst.pcb
  have hother : ∀ j, j ≠ i → s'.pcb j = s.pcb j := by
    intro j hj
    rw [hpcb, Function.update_of_ne hj]
  refine ⟨hproc, ?_, ?_⟩
  · intro j hj hl
    by_cases hji : j = i
    · rw [hji, hpcb, Function.update_self]
      exact hpid
    · unfold Live at hl
      rw [hother j hji] at hl ⊢
      exact hp.live j hj hl
  · intro j hj hav
    by_cases hji : j = i
    · rw [hji, hpcb, Function.update_self] at hav
      cases hav
    · rw [hother j hji] at hav ⊢
      exact hp.available j hj hav

/-- `do_exec` starts a task with the next pid. -/
theorem doExec_spec (hs : Settled n s q) (hcur : s.coreRunning cpu = .task i)
    {j : Nat} (hslot : freeSlot s = some j) (hproc : s.processId ≠ 2 ^ 31 - 1) :
    ∃ s' q', doExec cpu s = .ok (s.processId, s') ∧ Settled n s' q' ∧
      Starts j s.processId s q s' q' ∧ s'.processId = s.processId + 1 ∧
      s'.coreRunning = s.coreRunning := by
  have hs₁ : Settled n { s with processId := s.processId + 1 } q :=
    ⟨hs.toTidy.congr rfl (fun _ => rfl) rfl, hs.busy⟩
  have hj := freeSlot_some hslot
  obtain ⟨s', hnew, hs', hpcb, hcore, hproc', hm, hb⟩ :=
    newTask_spec hs₁ hj.1 hj.2 s.processId (s.pcb i).mask
  refine ⟨s', _, ?_, hs', ⟨hj, rfl, ⟨_, hpcb⟩, hm, hb⟩, hproc', hcore⟩
  unfold doExec
  rw [current_eq hcur]
  simp only [bind, Except.bind, hslot, if_neg hproc, hnew]

/-- `do_thread_create` starts a task with the pid of its creator. -/
theorem doThreadCreate_spec (hs : Settled n s q) (hcur : s.coreRunning cpu = .task i)
    {j : Nat} (hslot : freeSlot s = some j) :
    ∃ s' q', doThreadCreate cpu s = .ok s' ∧ Settled n s' q' ∧
      Starts j (s.pcb i).pid s q s' q' ∧ s'.processId = s.processId ∧
      s'.coreRunning = s.coreRunning := by
  have hj := freeSlot_some hslot
  obtain ⟨s', hnew, hs', hpcb, hcore, hproc', hm, hb⟩ :=
    newTask_spec hs hj.1 hj.2 (s.pcb i).pid (s.pcb i).mask
  refine ⟨s', _, ?_, hs', ⟨hj, rfl, ⟨_, hpcb⟩, hm, hb⟩, hproc', hcore⟩
  unfold doThreadCreate
  rw [current_eq hcur]
  simp only [bind, Except.bind, hslot, hnew]

/-- `do_waitpid`: the caller enters the wait list of a live task. -/
theorem doWaitpid_spec (hs : Settled n s q) (hp : Pids s) (hcpu : cpu < n)
    (hcur : s.coreRunning cpu = .task i) (pid : Int) (now : Nat) :
    ∃ r s' q', doWaitpid cpu pid now s = .ok (r, s') ∧ Settled n s' q' ∧ Pids s' ∧
      (∀ k, q' (.lock k) = q (.lock k)) ∧ (∀ k, q' (.barrier k) = q (.barrier k)) ∧
      (∀ j, (s'.pcb j).pid = (s.pcb j).pid) ∧ (∀ j, Live s' j ↔ Live s j) ∧
      s'.mlocks = s.mlocks ∧ s'.barriers = s.barriers ∧ s'.processId = s.processId := by
  unfold doWaitpid
  cases hfind : findPid pid s with
  | none =>
      exact ⟨0, s, q, rfl, hs, hp, fun _ => rfl, fun _ => rfl, fun _ => rfl, fun _ => Iff.rfl,
        rfl, rfl, rfl⟩
  | some j =>
      by_cases hl : (s.pcb j).status ≠ .exited ∧ (s.pcb j).status ≠ .available
      · have hj : j < numMaxTask := by
          have := (findFrom_some hfind).2.1
          omega
        obtain ⟨s', q', hblk, hs', hw⟩ := hs.doBlock (h := .wait j) hcpu hcur ⟨hj, hl.2⟩ (by simp)
          (fun k hk => by cases hk; exact hl) now
        refine ⟨pid, s', q', ?_, hs', hw.pids hp, ?_, ?_, hw.pid, hw.live, hw.mlocks,
          hw.barriers, hw.processId⟩
        · simp only [if_pos hl]
          rw [current_eq hcur]
          unfold doBlock at hblk
          change (blockOn (.wait j) i s >>= fun s => doScheduler cpu now s >>= fun s =>
            Except.ok (pid, s)) = _
          cases hbo : blockOn (.wait j) i s with
          | error e =>
              rw [hbo] at hblk
              cases hblk
          | ok t =>
              rw [hbo] at hblk
              change doScheduler cpu now t >>= _ = _
              change doScheduler cpu now t = _ at hblk
              rw [hblk]
              rfl
        · intro k
          rw [hw.queues _ (by simp)]
          exact Function.update_of_ne (by simp) _ _
        · intro k
          rw [hw.queues _ (by simp)]
          exact Function.update_of_ne (by simp) _ _
      · obtain ⟨s', q', hsched, hs', hw⟩ := hs.schedule hp hcpu now
        refine ⟨pid, s', q', ?_, hs', hw.pids hp, fun k => hw.queues _ (by simp),
          fun k => hw.queues _ (by simp), hw.pid, hw.live, hw.mlocks, hw.barriers, hw.processId⟩
        simp only [if_neg hl]
        rw [hsched]
        rfl

/-- The timer interrupt moves tasks between the ready and the sleep queue. -/
theorem handleIrqTimer_spec (hs : Settled n s q) (hp : Pids s) (hcpu : cpu < n)
    (now now' : Nat) :
    ∃ s' q', handleIrqTimer cpu now now' s = .ok s' ∧ Settled n s' q' ∧
      Quiet [.ready, .sleep] s q s' q' := by
  obtain ⟨s₁, q₁, hcheck, ht₁, hw₁⟩ := checkSleeping_spec hs.toTidy now
  have hs₁ : Settled n s₁ q₁ :=
    ⟨ht₁, hs.busy.congr (fun j hj => (hw₁.running j).mpr hj) hw₁.core⟩
  obtain ⟨s', q', hsched, hs', hw'⟩ := hs₁.schedule (hw₁.toQuiet.pids hp) hcpu now'
  refine ⟨s', q', ?_, hs', hw₁.toQuiet.trans hw'⟩
  unfold handleIrqTimer
  rw [hcheck]
  exact hsched

/-- A mutex that is held makes the caller wait. -/
theorem doMutexLockAcquire_spec {k : Nat} (hs : Settled n s q) (hcpu : cpu < n)
    (hcur : s.coreRunning cpu = .task i) (hk : k < lockNum) (now : Nat) :
    ((s.mlocks k).locked = false ∧ doMutexLockAcquire cpu k now s =
        .ok (setLock k { s.mlocks k with locked := true, owner := (s.pcb i).pid } s)) ∨
    ((s.mlocks k).locked = true ∧ ∃ s' q', doMutexLockAcquire cpu k now s = .ok s' ∧
      Settled n s' q' ∧
      Quiet [.ready, .sleep] s (Function.update q (.lock k) (q (.lock k) ++ [i])) s' q') := by
  have hunfold : doMutexLockAcquire cpu k now s = if (s.mlocks k).locked = false then
      .ok (setLock k { s.mlocks k with locked := true, owner := (s.pcb i).pid } s)
      else doBlock cpu i (.lock k) now s := by
    unfold doMutexLockAcquire
    rw [current_eq hcur]
    change (if lockNum ≤ k then _ else _) = _
    rw [if_neg (by omega)]
  rw [hunfold]
  cases hl : (s.mlocks k).locked with
  | false => exact Or.inl ⟨rfl, if_pos rfl⟩
  | true =>
      refine Or.inr ⟨rfl, ?_⟩
      rw [if_neg (by simp)]
      have hh : IsHead s (.lock k) := hk
      exact hs.doBlock hcpu hcur hh (by simp) (fun j hj => by cases hj) now

/-- The last task to arrive at a barrier wakes the others, any other one waits. -/
theorem doBarrierWait_spec {k : Nat} (hs : Settled n s q) (hp : Pids s) (hcpu : cpu < n)
    (hcur : s.coreRunning cpu = .task i) (hk : k < barrierNum)
    (hnum : (s.barriers k).num = 1 ∨ (s.barriers k).num ≠ -2 ^ 31) (now : Nat) :
    ∃ s' q', doBarrierWait cpu k now s = .ok s' ∧ Settled n s' q' ∧
      (∀ j, (s'.pcb j).pid = (s.pcb j).pid) ∧ (∀ j, Live s' j ↔ Live s j) ∧ Pids s' ∧
      s'.mlocks = s.mlocks ∧ s'.processId = s.processId ∧
      (∀ m, q' (.lock m) = q (.lock m)) ∧
      (∀ m, m ≠ k → q' (.barrier m) = q (.barrier m) ∧ s'.barriers m = s.barriers m) ∧
      (s'.barriers k).key = (s.barriers k).key ∧
      (((s.barriers k).num = 1 ∧ q' (.barrier k) = [] ∧
        (s'.barriers k).num = 1 + (q (.barrier k)).length) ∨
      ((s.barriers k).num ≠ 1 ∧ q' (.barrier k) = q (.barrier k) ++ [i] ∧
        (s'.barriers k).num = (s.barriers k).num - 1)) := by
  have hunfold : doBarrierWait cpu k now s = if (s.barriers k).num = 1 then
      barrierLoop k rounds s >>= fun s => doScheduler cpu now s
      else blockOn (.barrier k) i s >>= fun s => doScheduler cpu now
        (setBarrier k { s.barriers k with num := (s.barriers k).num - 1 } s) := by
    unfold doBarrierWait
    rw [current_eq hcur]
    change (if barrierNum ≤ k then _ else _) = _
    rw [if_neg (by omega)]
    by_cases hone : (s.barriers k).num = 1
    · rw [if_pos hone, if_pos hone]
    · rw [if_neg hone, if_neg hone, if_neg (hnum.resolve_left hone)]
  rw [hunfold]
  by_cases hone : (s.barriers k).num = 1
  · rw [if_pos hone]
    obtain ⟨s₁, q₁, hloop, ⟨ht₁, hw₁, hnil⟩, hbar⟩ :=
      barrierLoop_spec hk rounds s q hs.toTidy hs.toTidy.length_lt
    have hb₁ : Busy (· < n) s₁ :=
      hs.busy.congr (fun j hj => (hw₁.running j).mpr hj) hw₁.core
    have hs₁ : Settled n s₁ q₁ := ⟨ht₁.congr rfl (fun _ => rfl) rfl, hb₁⟩
    have hp₁ : Pids s₁ := by
      have hp₁ := hw₁.toQuiet.pids hp
      exact ⟨hp₁.fresh, hp₁.live, hp₁.available⟩
    obtain ⟨s', q', hsched, hs', hw'⟩ := hs₁.schedule hp₁ hcpu now
    have hbk : s'.barriers k = ⟨(s.barriers k).key, (s.barriers k).num + (q (.barrier k)).length⟩ := by
      rw [hw'.barriers, hbar, Function.update_self]
    refine ⟨s', q', ?_, hs', ?_, ?_, hw'.pids hp₁, ?_, ?_, ?_, ?_, ?_, ?_⟩
    · rw [hloop]
      exact hsched
    · intro j
      exact (hw'.pid j).trans (hw₁.pid j)
    · intro j
      exact (hw'.live j).trans (hw₁.live j)
    · exact hw'.mlocks.trans hw₁.mlocks
    · exact hw'.processId.trans hw₁.processId
    · intro m
      exact (hw'.queues _ (by simp)).trans (hw₁.queues _ (by simp))
    · intro m hm
      refine ⟨(hw'.queues _ (by simp)).trans (hw₁.queues _ (by simp [hm])), ?_⟩
      rw [hw'.barriers, hbar, Function.update_of_ne hm]
    · rw [hbk]
    · refine Or.inl ⟨hone, ?_, ?_⟩
      · rw [hw'.queues _ (by simp)]
        exact hnil
      · rw [hbk, hone]
  · rw [if_neg hone]
    obtain ⟨l, hadd, ht, hb, hw⟩ := hs.block (t := setStatus i .blocked s) (h := .barrier k) hcpu
      hcur rfl (fun j hj => setStatus_pcb_of_ne hj _) (setStatus_pid i i _)
      (setStatus_pcb_self i _) rfl rfl rfl hk (by simp) (fun j hj => by cases hj)
    have hadd' : blockOn (.barrier k) i s = .ok { setStatus i .blocked s with links := l } := hadd
    have ht₁ : Tidy n (setBarrier k { s.barriers k with num := (s.barriers k).num - 1 }
        { setStatus i .blocked s with links := l })
        (Function.update q (.barrier k) (q (.barrier k) ++ [i])) :=
      ht.congr rfl (fun _ => rfl) rfl
    obtain ⟨s', q', hsched, hs', hw'⟩ := doScheduler_spec ht₁ hcpu
      (hb.congr (fun _ hj => hj) rfl)
      (blocked_core hcur rfl (setStatus_pcb_self i .blocked)) now
    have hbk : s'.barriers k = ⟨(s.barriers k).key, (s.barriers k).num - 1⟩ := by
      rw [hw'.barriers]
      exact Function.update_self _ _ _
    have hpid : ∀ j, (s'.pcb j).pid = (s.pcb j).pid := fun j => (hw'.pid j).trans (hw.pid j)
    have hlive : ∀ j, Live s' j ↔ Live s j := fun j => (hw'.live j).trans (hw.live j)
    refine ⟨s', q', ?_, hs', hpid, hlive, ?_, ?_, ?_, ?_, ?_, ?_, ?_⟩
    · rw [hadd']
      exact hsched
    · have hp₁ := hw.pids hp
      exact hw'.pids ⟨hp₁.fresh, hp₁.live, hp₁.available⟩
    · exact hw'.mlocks.trans hw.mlocks
    · exact hw'.processId.trans hw.processId
    · intro m
      rw [hw'.queues _ (by simp)]
      exact Function.update_of_ne (by simp) _ _
    · intro m hm
      refine ⟨?_, ?_⟩
      · rw [hw'.queues _ (by simp)]
        exact Function.update_of_ne (by simp [hm]) _ _
      · rw [hw'.barriers]
        exact Function.update_of_ne hm _ _
    · rw [hbk]
    · refine Or.inr ⟨hone, ?_, ?_⟩
      · rw [hw'.queues _ (by simp), Function.update_self]
      · rw [hbk]

/-- The calls that only touch the table of mutexes. -/
theorem doMutexLockInit_spec (key : Int) (hne : lockInitLoop s key lockNum 0 ≠ none) :
    ∃ k s', doMutexLockInit key s = .ok (k, s') ∧
      (s' = s ∨ s' = setLock k ⟨false, 0, key⟩ s) := by
  unfold doMutexLockInit
  cases hf : lockInitLoop s key lockNum 0 with
  | none => exact absurd hf hne
  | some p =>
      obtain ⟨k, found⟩ := p
      cases found with
      | true => exact ⟨k, s, rfl, Or.inl rfl⟩
      | false => exact ⟨k, _, rfl, Or.inr rfl⟩

/-! ## Every legal call -/

/-- The slot that is found has the pid. -/
theorem findPid_lt {pid : Int} (hf : findPid pid s = some i) :
    i < numMaxTask ∧ (s.pcb i).pid = pid := by
  obtain ⟨_, h₂, h₃⟩ := findFrom_some hf
  exact ⟨by omega, of_decide_eq_true h₃⟩

/-- The victim of a kill has been used. -/
theorem Pids.inUse {pid : Int} (hp : Pids s) (hpid : 0 < pid ∨ InUse pid s)
    (hf : findPid pid s = some i) : (s.pcb i).status ≠ .available := by
  rcases hpid with hpid | hin
  · intro hav
    obtain ⟨hi, heq⟩ := findPid_lt hf
    have := hp.available i hi hav
    omega
  · exact hin i hf

/-- Only the tables of mutexes and barriers change. -/
theorem Settled.tables {t : State} (hs : Settled n s q) (hp : Pids s) (hpcb : t.pcb = s.pcb)
    (hlinks : t.links = s.links) (hcore : t.coreRunning = s.coreRunning)
    (hproc : t.processId = s.processId) : Settled n t q ∧ Pids t := by
  refine ⟨⟨hs.toTidy.congr hlinks (fun j => by rw [hpcb]) hcore,
    hs.busy.congr (fun j hj => by rw [hpcb]; exact hj) hcore⟩, ?_, ?_, ?_⟩
  · rw [hproc]
    exact hp.fresh
  · unfold Live
    rw [hpcb]
    exact hp.live
  · rw [hpcb]
    exact hp.available

/-- No task starts or ends, and pids stay. -/
structure SameTasks (s s' : State) : Prop where
  pid : ∀ j, (s'.pcb j).pid = (s.pcb j).pid
  live : ∀ j, Live s' j ↔ Live s j
  processId : s'.processId = s.processId

/-- Where queues alone change, tasks stay. -/
theorem Quiet.sameTasks {E : List Node} {s' : State} {q' : Node → List Nat}
    (hw : Quiet E s q s' q') : SameTasks s s' := ⟨hw.pid, hw.live, hw.processId⟩

theorem SameTasks.refl : SameTasks s s := ⟨fun _ => rfl, fun _ => Iff.rfl, rfl⟩

/-- Tasks are read off the PCBs. -/
theorem SameTasks.of_pcb {s' : State} (hpcb : s'.pcb = s.pcb) (hproc : s'.processId = s.processId) :
    SameTasks s s' := by
  refine ⟨fun j => by rw [hpcb], fun j => ?_, hproc⟩
  unfold Live
  rw [hpcb]

/-- The calls that move tasks about and nothing else. -/
def Call.moves : Call → Bool
  | .waitpid _ _ | .sleep _ _ _ | .schedule _ | .tick _ _ => true
  | _ => false

/-- What a kernel entry does on core `cpu` to the tasks, the queues and the tables. -/
inductive CallEffect (cpu : Nat) (s : State) (q : Node → List Nat) (s' : State)
    (q' : Node → List Nat) : Call → Prop
  | exec {i : Nat} (starts : Starts i s.processId s q s' q')
      (next : s'.processId = s.processId + 1) : CallEffect cpu s q s' q' .exec
  | threadCreate {i j : Nat} (cur : s.coreRunning cpu = .task i)
      (starts : Starts j (s.pcb i).pid s q s' q') (next : s'.processId = s.processId) :
      CallEffect cpu s q s' q' .threadCreate
  | exit {i now : Nat} (cur : s.coreRunning cpu = .task i) (free : ∀ h, i ∉ q h)
      (ends : Ends i s q s' q') (pid : (s'.pcb i).pid = (s.pcb i).pid)
      (mlocks : s'.mlocks = s.mlocks) (locks : ∀ k, q' (.lock k) = q (.lock k)) :
      CallEffect cpu s q s' q' (.exit now)
  | killNobody {pid : Int} {now : Nat} (none : findPid pid s = none) (same : s' = s) (queues : q' = q) :
      CallEffect cpu s q s' q' (.kill pid now)
  | kill {i now : Nat} {pid : Int} (find : findPid pid s = some i)
      (killed : Killed i pid s q s' q') : CallEffect cpu s q s' q' (.kill pid now)
  | moves {c : Call} (which : c.moves = true) (tasks : SameTasks s s')
      (mlocks : s'.mlocks = s.mlocks) (barriers : s'.barriers = s.barriers)
      (locks : ∀ k, q' (.lock k) = q (.lock k)) (waits : ∀ k, q' (.barrier k) = q (.barrier k)) :
      CallEffect cpu s q s' q' c
  | lockInit {key : Int} {k : Nat} {found : Bool} (find : lockInitLoop s key lockNum 0 = some (k, found))
      (same : s' = if found then s else setLock k ⟨false, 0, key⟩ s) (queues : q' = q) :
      CallEffect cpu s q s' q' (.lockInit key)
  | take {k now i : Nat} (lt : k < lockNum) (cur : s.coreRunning cpu = .task i)
      (free : (s.mlocks k).locked = false)
      (same : s' = setLock k { s.mlocks k with locked := true, owner := (s.pcb i).pid } s)
      (queues : q' = q) : CallEffect cpu s q s' q' (.acquire k now)
  | wait {k now i : Nat} (lt : k < lockNum) (cur : s.coreRunning cpu = .task i)
      (held : (s.mlocks k).locked = true)
      (quiet : Quiet [.ready, .sleep] s (Function.update q (.lock k) (q (.lock k) ++ [i])) s' q') :
      CallEffect cpu s q s' q' (.acquire k now)
  | release {k i : Nat} (lt : k < lockNum) (cur : s.coreRunning cpu = .task i)
      (wakes : Wakes [.ready, .lock k] s q { s' with mlocks := s.mlocks } q')
      (mlocks : s'.mlocks = Function.update s.mlocks k
        (handed (fun j => (s.pcb j).pid) (s.mlocks k) (q (.lock k))))
      (queue : q' (.lock k) = (q (.lock k)).tail) : CallEffect cpu s q s' q' (.release k)
  | barrierInit {key goal : Int} (same : s' = (doBarrierInit key goal s).2) (queues : q' = q) :
      CallEffect cpu s q s' q' (.barrierInit key goal)
  | barrierWait {k now i : Nat} (lt : k < barrierNum) (tasks : SameTasks s s')
      (mlocks : s'.mlocks = s.mlocks) (locks : ∀ m, q' (.lock m) = q (.lock m))
      (other : ∀ m, m ≠ k → q' (.barrier m) = q (.barrier m) ∧ s'.barriers m = s.barriers m)
      (self : ((s.barriers k).num = 1 ∧ q' (.barrier k) = [] ∧
          (s'.barriers k).num = 1 + (q (.barrier k)).length) ∨
        ((s.barriers k).num ≠ 1 ∧ q' (.barrier k) = q (.barrier k) ++ [i] ∧
          (s'.barriers k).num = (s.barriers k).num - 1)) :
      CallEffect cpu s q s' q' (.barrierWait k now)
  | barrierDestroy {k : Nat} (same : s' = s ∨ s' = setBarrier k ⟨-1, -1⟩ s) (queues : q' = q) :
      CallEffect cpu s q s' q' (.barrierDestroy k)

/-- `do_barrier_init` finds a barrier, or sets one up. -/
theorem doBarrierInit_cases (key goal : Int) (s : State) :
    (doBarrierInit key goal s).2 = s ∨ ∃ k b, (doBarrierInit key goal s).2 = setBarrier k b s := by
  unfold doBarrierInit
  split
  · exact Or.inl rfl
  · exact Or.inr ⟨_, _, rfl⟩

/-- **One kernel entry.** -/
theorem handle_effect (hs : Settled n s q) (hp : Pids s) (hcpu : cpu < n) {c : Call}
    (hl : Legal cpu s c) (hk : KillsOwn n cpu s c) :
    ∃ s' q', handle cpu c s = .ok s' ∧ Settled n s' q' ∧ Pids s' ∧ CallEffect cpu s q s' q' c := by
  obtain ⟨htask, hargs⟩ := hl
  have hcur : c.fromIdle = false → ∃ i, s.coreRunning cpu = .task i := by
    intro hidle
    cases hcur : s.coreRunning cpu with
    | idle =>
        rcases htask with htask | htask
        · exact absurd hcur htask
        · rw [hidle] at htask
          cases htask
    | task i => exact ⟨i, rfl⟩
  -- a call that leaves all but the two places of the scheduler alone
  have hmoves : ∀ {c : Call} {s' : State} {q' : Node → List Nat}, c.moves = true →
      Quiet [.ready, .sleep] s q s' q' → CallEffect cpu s q s' q' c := by
    intro c s' q' hc hw
    exact .moves hc hw.sameTasks hw.mlocks hw.barriers (fun k => hw.queues _ (by simp))
      (fun k => hw.queues _ (by simp))
  cases c with
  | exec =>
      obtain ⟨i, hi⟩ := hcur rfl
      obtain ⟨j, hslot⟩ := Option.ne_none_iff_exists'.mp hargs.1
      obtain ⟨s', q', hex, hs', hst, hproc, _⟩ := doExec_spec hs hi hslot hargs.2
      have hfresh := hp.fresh
      refine ⟨s', q', ?_, hs', hst.pids hp hfresh (by omega), .exec hst hproc⟩
      change doExec cpu s >>= _ = _
      rw [hex]
      rfl
  | threadCreate =>
      obtain ⟨i, hi⟩ := hcur rfl
      obtain ⟨j, hslot⟩ := Option.ne_none_iff_exists'.mp hargs
      obtain ⟨s', q', hex, hs', hst, hproc, _⟩ := doThreadCreate_spec hs hi hslot
      obtain ⟨hlt, hrun, _⟩ := hs.current hcpu hi
      have hfresh := hp.fresh
      exact ⟨s', q', hex, hs', hst.pids hp (hp.live i hlt (live_of_running hrun)) (by omega),
        .threadCreate hi hst hproc⟩
  | exit now =>
      obtain ⟨i, hi⟩ := hcur rfl
      obtain ⟨s', q', hex, hs', he, hpid, hm, hq⟩ := doExit_spec hs hcpu hi now
      obtain ⟨_, _, hfree⟩ := hs.current hcpu hi
      exact ⟨s', q', hex, hs', he.pids hp, .exit hi hfree he hpid hm hq⟩
  | kill pid now =>
      cases hf : findPid pid s with
      | none =>
          refine ⟨s, q, ?_, hs, hp, .killNobody hf rfl rfl⟩
          change doKill cpu pid now s >>= _ = _
          unfold doKill
          rw [hf]
          rfl
      | some i =>
          obtain ⟨r, s', q', hex, hs', he⟩ := doKill_spec hs hcpu hf (findPid_lt hf).1
            (hp.inUse hargs hf) (hk i hf) now
          refine ⟨s', q', ?_, hs', he.toEnds.pids hp, .kill hf he⟩
          change doKill cpu pid now s >>= _ = _
          rw [hex]
          rfl
  | waitpid pid now =>
      obtain ⟨i, hi⟩ := hcur rfl
      obtain ⟨r, s', q', hex, hs', hp', hql, hqb, hpid, hlive, hm, hb, hproc⟩ :=
        doWaitpid_spec hs hp hcpu hi pid now
      refine ⟨s', q', ?_, hs', hp', .moves rfl ⟨hpid, hlive, hproc⟩ hm hb hql hqb⟩
      change doWaitpid cpu pid now s >>= _ = _
      rw [hex]
      rfl
  | sleep t now now' =>
      obtain ⟨i, hi⟩ := hcur rfl
      obtain ⟨s', q', hex, hs', hw⟩ := doSleep_spec hs hcpu hi t now now'
      exact ⟨s', q', hex, hs', hw.pids hp, hmoves rfl hw⟩
  | schedule now =>
      obtain ⟨s', q', hex, hs', hw⟩ := hs.schedule hp hcpu now
      exact ⟨s', q', hex, hs', hw.pids hp, hmoves rfl hw⟩
  | tick now now' =>
      obtain ⟨s', q', hex, hs', hw⟩ := handleIrqTimer_spec hs hp hcpu now now'
      exact ⟨s', q', hex, hs', hw.pids hp, hmoves rfl hw⟩
  | lockInit key =>
      obtain ⟨⟨k, found⟩, hf⟩ := Option.ne_none_iff_exists'.mp hargs
      have hret : doMutexLockInit key s =
          .ok (k, if found then s else setLock k ⟨false, 0, key⟩ s) := by
        unfold doMutexLockInit
        rw [hf]
        cases found <;> rfl
      refine ⟨if found then s else setLock k ⟨false, 0, key⟩ s, q, ?_, ?_⟩
      · change doMutexLockInit key s >>= _ = _
        rw [hret]
        rfl
      · cases found with
        | true => exact ⟨hs, hp, .lockInit hf rfl rfl⟩
        | false =>
            obtain ⟨hs', hp'⟩ := hs.tables (t := setLock k ⟨false, 0, key⟩ s) hp rfl rfl rfl rfl
            exact ⟨hs', hp', .lockInit hf rfl rfl⟩
  | acquire k now =>
      obtain ⟨i, hi⟩ := hcur rfl
      rcases doMutexLockAcquire_spec hs hcpu hi hargs now with
        ⟨hfree, hex⟩ | ⟨hheld, s', q', hex, hs', hw⟩
      · obtain ⟨hs', hp'⟩ := hs.tables
          (t := setLock k { s.mlocks k with locked := true, owner := (s.pcb i).pid } s)
          hp rfl rfl rfl rfl
        exact ⟨_, q, hex, hs', hp', .take hargs hi hfree rfl rfl⟩
      · exact ⟨s', q', hex, hs', hw.pids hp, .wait hargs hi hheld hw⟩
  | release k =>
      obtain ⟨i, hi⟩ := hcur rfl
      obtain ⟨s', q', hex, ht', hw, hm, hq⟩ := doMutexLockRelease_spec hs.toTidy hargs
      have hp' := hw.toQuiet.pids hp
      refine ⟨s', q', hex, ⟨ht', ?_⟩, ⟨hp'.fresh, hp'.live, hp'.available⟩,
        .release hargs hi hw hm hq⟩
      exact hs.busy.congr (fun j hj => (hw.running j).mpr hj) hw.core
  | barrierInit key goal =>
      have hset : Settled n (doBarrierInit key goal s).2 q ∧ Pids (doBarrierInit key goal s).2 := by
        rcases doBarrierInit_cases key goal s with heq | ⟨k, b, heq⟩
        · rw [heq]
          exact ⟨hs, hp⟩
        · rw [heq]
          exact hs.tables hp rfl rfl rfl rfl
      exact ⟨(doBarrierInit key goal s).2, q, rfl, hset.1, hset.2, .barrierInit rfl rfl⟩
  | barrierWait k now =>
      obtain ⟨i, hi⟩ := hcur rfl
      obtain ⟨s', q', hex, hs', hpid, hlive, hp', hm, hproc, hql, hother, _, hself⟩ :=
        doBarrierWait_spec hs hp hcpu hi hargs.1 hargs.2 now
      exact ⟨s', q', hex, hs', hp',
        .barrierWait hargs.1 ⟨hpid, hlive, hproc⟩ hm hql hother hself⟩
  | barrierDestroy k =>
      have hk' : ¬ barrierNum ≤ k := Nat.not_le.mpr hargs
      change ∃ s' q', doBarrierDestroy k s = .ok s' ∧ _
      unfold doBarrierDestroy
      rw [if_neg hk']
      by_cases hkey : (s.barriers k).key = -1
      · rw [if_pos hkey]
        exact ⟨s, q, rfl, hs, hp, .barrierDestroy (Or.inl rfl) rfl⟩
      · rw [if_neg hkey]
        obtain ⟨hs', hp'⟩ := hs.tables (t := setBarrier k ⟨-1, -1⟩ s) hp rfl rfl rfl rfl
        exact ⟨_, q, rfl, hs', hp', .barrierDestroy (Or.inr rfl) rfl⟩

/-- The step lemma of a settled state. -/
theorem step_settled (hs : Settled n s q) (hp : Pids s) (hcpu : cpu < n) {c : Call}
    (hl : Legal cpu s c) (hk : KillsOwn n cpu s c) :
    ∃ s' q', step cpu c s = .ok s' ∧ Settled n s' q' ∧ Pids s' := by
  have hnot : ¬ (s.coreRunning cpu = .idle ∧ c.fromIdle = false) := by
    intro hcon
    rcases hl.1 with htask | htask
    · exact htask hcon.1
    · rw [hcon.2] at htask
      cases htask
  unfold step
  rw [if_neg hnot]
  obtain ⟨s', q', hret, hs', hp', _⟩ := handle_effect hs hp hcpu hl hk
  exact ⟨s', q', hret, hs', hp'⟩

/-- A wait list that was never initialised has null links. -/
theorem drainLoop_available (ht : Tidy n s q)
    (hav : (s.pcb i).status = .available) :
    drainLoop Links.next i rounds s = .error .undefined := by
  have hfree : ∀ b, IsHead s b → Node.wait i ∉ (q b).map Node.task := by
    intro b _ hmem
    obtain ⟨j, _, hj⟩ := List.mem_map.mp hmem
    cases hj
  have hnext := (ht.queues.rings.detached (.wait i) (fun hh => hh.2 hav) hfree).1
  have hempty : listIsEmpty (.wait i) s.links = false := by
    unfold listIsEmpty
    rw [hnext]
    rfl
  unfold rounds drainLoop
  rw [hempty]
  simp only [hnext]
  rfl

/-- A call that returns was legal. -/
theorem legal_of_ok (ht : Tidy n s q) {c : Call} {s' : State} (hok : step cpu c s = .ok s') :
    Legal cpu s c := by
  unfold step at hok
  by_cases hidle : s.coreRunning cpu = .idle ∧ c.fromIdle = false
  · rw [if_pos hidle] at hok
    cases hok
  rw [if_neg hidle] at hok
  refine ⟨?_, ?_⟩
  · by_cases hcur : s.coreRunning cpu = .idle
    · exact Or.inr (by simpa using fun hf => hidle ⟨hcur, hf⟩)
    · exact Or.inl hcur
  cases c with
  | exec =>
      rcases current_cases cpu s with ⟨i, _, hcur⟩ | hcur
      · have hok' : doExec cpu s >>= (fun p => Except.ok p.2) = .ok s' := hok
        unfold doExec at hok'
        rw [hcur] at hok'
        constructor
        · intro hnone
          simp only [hnone] at hok'
          cases hok'
        · intro hmax
          cases hslot : freeSlot s with
          | none =>
              simp only [hslot] at hok'
              cases hok'
          | some j =>
              simp only [hslot, hmax] at hok'
              cases hok'
      · have hok' : doExec cpu s >>= (fun p => Except.ok p.2) = .ok s' := hok
        unfold doExec at hok'
        rw [hcur] at hok'
        cases hok'
  | threadCreate =>
      intro hnone
      have hok' : doThreadCreate cpu s = .ok s' := hok
      unfold doThreadCreate at hok'
      rcases current_cases cpu s with ⟨i, _, hcur⟩ | hcur
      · rw [hcur] at hok'
        simp only [hnone] at hok'
        cases hok'
      · rw [hcur] at hok'
        cases hok'
  | kill pid now =>
      by_contra hcon
      have hin : ¬ InUse pid s := fun h => hcon (Or.inr h)
      have hok' : doKill cpu pid now s >>= (fun p => Except.ok p.2) = .ok s' := hok
      apply hin
      intro i hf hav
      unfold doKill at hok'
      rw [hf] at hok'
      simp only [drainLoop_available ht hav] at hok'
      cases hok'
  | lockInit key =>
      intro hnone
      have hok' : doMutexLockInit key s >>= (fun p => Except.ok p.2) = .ok s' := hok
      unfold doMutexLockInit at hok'
      rw [hnone] at hok'
      cases hok'
  | acquire k now =>
      by_contra hcon
      have hle : lockNum ≤ k := Nat.not_lt.mp hcon
      have hok' : doMutexLockAcquire cpu k now s = .ok s' := hok
      unfold doMutexLockAcquire at hok'
      rcases current_cases cpu s with ⟨i, _, hcur⟩ | hcur
      · rw [hcur] at hok'
        change (if lockNum ≤ k then _ else _) = _ at hok'
        rw [if_pos hle] at hok'
        cases hok'
      · rw [hcur] at hok'
        cases hok'
  | release k =>
      by_contra hcon
      have hok' : doMutexLockRelease k s = .ok s' := hok
      unfold doMutexLockRelease at hok'
      rw [if_pos (Nat.not_lt.mp hcon)] at hok'
      cases hok'
  | barrierWait k now =>
      have hok' : doBarrierWait cpu k now s = .ok s' := hok
      unfold doBarrierWait at hok'
      rcases current_cases cpu s with ⟨i, _, hcur⟩ | hcur
      · rw [hcur] at hok'
        change (if barrierNum ≤ k then _ else _) = _ at hok'
        by_cases hle : barrierNum ≤ k
        · rw [if_pos hle] at hok'
          cases hok'
        · rw [if_neg hle] at hok'
          refine ⟨Nat.not_le.mp hle, ?_⟩
          by_cases hone : (s.barriers k).num = 1
          · exact Or.inl hone
          · refine Or.inr (fun hmin => ?_)
            rw [if_neg hone, if_pos hmin] at hok'
            cases hok'
      · rw [hcur] at hok'
        cases hok'
  | barrierDestroy k =>
      by_contra hcon
      have hok' : doBarrierDestroy k s = .ok s' := hok
      unfold doBarrierDestroy at hok'
      rw [if_pos (Nat.not_lt.mp hcon)] at hok'
      cases hok'
  | exit now => trivial
  | waitpid pid now => trivial
  | sleep t now now' => trivial
  | schedule now => trivial
  | tick now now' => trivial
  | barrierInit key goal => trivial

/-- What a call did that returned. -/
theorem step_effect (hs : Settled n s q) (hp : Pids s) (hcpu : cpu < n) {c : Call}
    (hk : KillsOwn n cpu s c) {s' : State} (hstep : step cpu c s = .ok s') :
    ∃ q', Settled n s' q' ∧ Pids s' ∧ CallEffect cpu s q s' q' c := by
  have hl := legal_of_ok hs.toTidy hstep
  have hnot : ¬ (s.coreRunning cpu = .idle ∧ c.fromIdle = false) := by
    intro hcon
    rcases hl.1 with htask | htask
    · exact htask hcon.1
    · rw [hcon.2] at htask
      cases htask
  unfold step at hstep
  rw [if_neg hnot] at hstep
  obtain ⟨t, q', hret, hs', hp', he⟩ := handle_effect hs hp hcpu hl hk
  rw [hstep] at hret
  cases hret
  exact ⟨q', hs', hp', he⟩

end Specs

/-! ## The first state -/

/-- The queues `init_pcb` leaves. -/
def initQueues : Node → List Nat
  | .ready => [0]
  | _ => []

/-- All PCBs but the first are free. -/
theorem initState_available {i : Nat} (hi : i ≠ 0) : (initState.pcb i).status = .available := by
  unfold initState
  simp only [if_neg hi]

/-- The shell's is the only queue of waiters. -/
theorem initState_isHead_wait {i : Nat} (hh : IsHead initState (.wait i)) : i = 0 := by
  by_contra hi
  exact hh.2 (initState_available hi)

/-- The rings hold these queues. -/
theorem initState_queues : Queues initState initQueues := by
  refine ⟨⟨?_, ?_, ?_⟩, ?_⟩
  · intro a ha
    cases a with
    | ready => exact ⟨by simp [initQueues], ⟨rfl, rfl⟩, rfl, rfl⟩
    | sleep => exact ⟨by simp [initQueues], rfl, rfl⟩
    | lock k =>
        have hk : k < lockNum := ha
        exact ⟨by simp [initQueues], if_pos hk, if_pos hk⟩
    | barrier k =>
        have hk : k < barrierNum := ha
        exact ⟨by simp [initQueues], if_pos hk, if_pos hk⟩
    | cond k =>
        have hk : k < conditionNum := ha
        exact ⟨by simp [initQueues], if_pos hk, if_pos hk⟩
    | wait i =>
        rw [initState_isHead_wait ha]
        exact ⟨by simp [initQueues], rfl, rfl⟩
    | task i => exact ha.elim
  · intro a b ha hb x hxa hxb
    have hmem : ∀ c, x ∈ c :: (initQueues c).map Node.task →
        x = c ∨ (c = .ready ∧ x = .task 0) := by
      intro c hx
      cases c <;> simpa [initQueues] using hx
    rcases hmem a hxa with hxa | ⟨har, hxa⟩
    · rcases hmem b hxb with hxb | ⟨hbr, hxb⟩
      · exact hxa.symm.trans hxb
      · rw [← hxa, hxb] at ha
        exact ha.elim
    · rcases hmem b hxb with hxb | ⟨hbr, _⟩
      · rw [← hxb, hxa] at hb
        exact hb.elim
      · exact har.trans hbr.symm
  · intro x hx hfree
    cases x with
    | ready => exact absurd trivial hx
    | sleep => exact absurd trivial hx
    | lock k => exact ⟨if_neg hx, if_neg hx⟩
    | barrier k => exact ⟨if_neg hx, if_neg hx⟩
    | cond k => exact ⟨if_neg hx, if_neg hx⟩
    | wait i =>
        have hi : i ≠ 0 := by
          intro heq
          apply hx
          rw [heq]
          exact ⟨by decide, by decide⟩
        exact ⟨if_neg hi, if_neg hi⟩
    | task i =>
        have hi : i ≠ 0 := by
          intro heq
          apply hfree .ready trivial
          rw [heq]
          exact List.mem_singleton.mpr rfl
        exact ⟨if_neg hi, if_neg hi⟩
  · intro b hb
    cases b with
    | ready => exact absurd trivial hb
    | _ => rfl

/-- The first state is settled. -/
theorem initState_settled (n : Nat) : Settled n initState initQueues := by
  refine ⟨⟨initState_queues, ?_, ?_, ?_, ?_⟩, ?_⟩
  · intro b i hi
    cases b with
    | ready =>
        have hi' : i = 0 := List.mem_singleton.mp hi
        rw [hi']
        decide
    | _ => cases hi
  · intro i _
    unfold Placed
    by_cases hi : i = 0
    · subst hi
      intro b
      cases b <;> simp [initQueues]
    · rw [initState_available hi]
      refine ⟨rfl, fun b => ?_⟩
      cases b <;> simp [initQueues, hi]
  · intro c i _ hci
    cases hci
  · intro c d i _ _ hci
    cases hci
  · intro c i _ hci
    cases hci

/-- The shell is the only one with a pid. -/
theorem initState_pids : Pids initState := by
  refine ⟨by decide, ?_, ?_⟩
  · intro i _ hl
    by_cases hi : i = 0
    · subst hi
      decide
    · exact absurd (initState_available hi) hl.2
  · intro i _ hav
    by_cases hi : i = 0
    · subst hi
      cases hav
    · unfold initState
      simp only [if_neg hi]
      decide

end Sched
