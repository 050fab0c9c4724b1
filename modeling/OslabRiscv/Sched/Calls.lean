import OslabRiscv.Sched.Queue

/-!
# Scheduling, processes, mutexes and barriers

The calls of `sched.c` and of the mutex and barrier part of `lock.c`.  Each
takes the core it runs on and the values `get_timer` returns on the way.  What
a function does after its call of `do_scheduler` is to return, so a call is one
step of the machine, after which whatever `core_running` points to goes on.

A loop over a queue is bounded by the size of the process table: a loop that
takes more rounds is `endless`.
-/

namespace Sched

open IntrusiveList

/-- More rounds than any queue has entries. -/
def rounds : Nat := numMaxTask + 1

/-! ## The scheduler -/

/-- The loop of `check_sleeping`; `it` is the node at hand. -/
def checkLoop (now : Nat) : Nat → Option Node → State → Except Stop State
  | 0, _, _ => .error .endless
  | fuel + 1, it, s =>
    match it with
    | some .sleep => .ok s
    | some (.task i) =>
      let next := s.links.next (.task i)
      if (s.pcb i).wakeupTime ≤ now then do
        let s ← addQueue .ready i (delQueue i (setStatus i .ready s))
        checkLoop now fuel next s
      else checkLoop now fuel next s
    | _ => .error .undefined

def checkSleeping (now : Nat) (s : State) : Except Stop State :=
  checkLoop now rounds (s.links.next .sleep) s

/-- The search of `do_scheduler` for a task that may run on the core. -/
def pickLoop (cpu : Nat) : Nat → Option Node → State → Except Stop (Option Nat × State)
  | 0, _, _ => .error .endless
  | fuel + 1, it, s =>
    match it with
    | some .ready => .ok (none, s)
    | some (.task i) =>
      if (s.pcb i).mask.testBit cpu then .ok (some i, delQueue i s)
      else pickLoop cpu fuel (s.links.next (.task i)) s
    | _ => .error .undefined

/-- The running task goes back to the ready queue.  The idle PCB has pid 0. -/
def requeue (last : Who) (s : State) : Except Stop State :=
  match last with
  | .task i =>
    if (s.pcb i).status = .running ∧ (s.pcb i).pid ≠ 0 then
      addQueue .ready i (setStatus i .ready s)
    else .ok s
  | .idle => .ok s

/-- The chosen task runs. -/
def dispatch (cpu : Nat) (next : Option Nat) (s : State) : State :=
  match next with
  | some i =>
    { setStatus i .running s with coreRunning := Function.update s.coreRunning cpu (.task i) }
  | none => { s with coreRunning := Function.update s.coreRunning cpu .idle }

def doScheduler (cpu now : Nat) (s : State) : Except Stop State := do
  let last := s.coreRunning cpu
  let s ← checkSleeping now s
  let s ← requeue last s
  if listIsEmpty .ready s.links then .ok (dispatch cpu none s)
  else do
    let (next, s) ← pickLoop cpu rounds (s.links.next .ready) s
    .ok (dispatch cpu next s)

/-- The PCB that makes the call. -/
def current (cpu : Nat) (s : State) : Except Stop Nat :=
  match s.coreRunning cpu with
  | .task i => .ok i
  | .idle => .error .undefined

/-- The PCB is marked blocked and queued. -/
def blockOn (head : Node) (i : Nat) (s : State) : Except Stop State :=
  addQueue head i (setStatus i .blocked s)

def doSleep (cpu sleepTime now now' : Nat) (s : State) : Except Stop State := do
  let i ← current cpu s
  let s := setStatus i .blocked s
  let s := setPcb i { s.pcb i with wakeupTime := (sleepTime + now) % 2 ^ 64 } s
  let s ← addQueue .sleep i s
  doScheduler cpu now' s

def doBlock (cpu i : Nat) (head : Node) (now : Nat) (s : State) : Except Stop State := do
  let s ← blockOn head i s
  doScheduler cpu now s

/-! ## Processes -/

/-- The first entry from `i` on that satisfies `P`. -/
def findFrom (P : Nat → Bool) : Nat → Nat → Option Nat
  | 0, _ => none
  | left + 1, i => if P i then some i else findFrom P left (i + 1)

/-- A slot of the process table that may be used again. -/
def freeSlot (s : State) : Option Nat :=
  findFrom (fun i => (s.pcb i).status = .exited || (s.pcb i).status = .available)
    (numMaxTask - 1) 1

/-- What `do_exec` and `do_thread_create` do to the slot they found. -/
def newTask (i : Nat) (pid : Int) (mask : Nat) (s : State) : Except Stop State :=
  let s := setStatus i .ready s
  let l := (s.links.setNext (.task i) none).setPrev (.task i) none
  let s := { s with links := initListHead (.wait i) l }
  addQueue .ready i (setPcb i ⟨pid, .ready, 0, mask⟩ s)

/-- `do_exec`, without the pages it fills.  The pid is returned. -/
def doExec (cpu : Nat) (s : State) : Except Stop (Int × State) := do
  let c ← current cpu s
  match freeSlot s with
  | none => .error .panic
  | some i =>
    if s.processId = 2 ^ 31 - 1 then .error .undefined
    else do
      let pid := s.processId
      let s ← newTask i pid (s.pcb c).mask { s with processId := s.processId + 1 }
      .ok (pid, s)

/-- `do_thread_create`: the thread has the pid of its creator. -/
def doThreadCreate (cpu : Nat) (s : State) : Except Stop State := do
  let c ← current cpu s
  match freeSlot s with
  | none => .error .panic
  | some i => newTask i (s.pcb c).pid (s.pcb c).mask s

/-- The loop that wakes the tasks waiting for PCB `i`.  `side` is the link whose
PCB is asked for its status. -/
def drainLoop (side : Links Node → Node → Option Node) (i : Nat) :
    Nat → State → Except Stop State
  | 0, _ => .error .endless
  | fuel + 1, s =>
    if listIsEmpty (.wait i) s.links then .ok s
    else
      match side s.links (.wait i) with
      | some (.task j) =>
        if (s.pcb j).status ≠ .exited then do
          let s ← doUnblock (.wait i) s
          drainLoop side i fuel s
        else drainLoop side i fuel s
      | _ => .error .undefined

def doExit (cpu now : Nat) (s : State) : Except Stop State := do
  let i ← current cpu s
  let s ← drainLoop Links.prev i rounds s
  let s := setStatus i .exited (delQueue i s)
  doScheduler cpu now s

/-! ## Mutexes -/

def setLock (k : Nat) (m : MutexLock) (s : State) : State :=
  { s with mlocks := Function.update s.mlocks k m }

/-- The loop of `do_mutex_lock_init`: the lock with the key, or a free one in
front of it; `true` means the key was found. -/
def lockInitLoop (s : State) (key : Int) : Nat → Nat → Option (Nat × Bool)
  | 0, _ => none
  | left + 1, k =>
    if (s.mlocks k).key = key then some (k, true)
    else if (s.mlocks k).owner = -1 then some (k, false)
    else lockInitLoop s key left (k + 1)

def doMutexLockInit (key : Int) (s : State) : Except Stop (Nat × State) :=
  match lockInitLoop s key lockNum 0 with
  | none => .error .panic
  | some (k, true) => .ok (k, s)
  | some (k, false) => .ok (k, setLock k ⟨false, 0, key⟩ s)

def doMutexLockAcquire (cpu k now : Nat) (s : State) : Except Stop State := do
  let i ← current cpu s
  if lockNum ≤ k then .error .undefined
  else if (s.mlocks k).locked = false then
    .ok (setLock k { s.mlocks k with locked := true, owner := (s.pcb i).pid } s)
  else doBlock cpu i (.lock k) now s

def doMutexLockRelease (k : Nat) (s : State) : Except Stop State :=
  if lockNum ≤ k then .error .undefined
  else if listIsEmpty (.lock k) s.links then
    .ok (setLock k { s.mlocks k with locked := false, owner := -1 } s)
  else
    match s.links.next (.lock k) with
    | some (.task j) =>
      doUnblock (.lock k) (setLock k { s.mlocks k with owner := (s.pcb j).pid } s)
    | _ => .error .undefined

/-- `release_pcb_lock` from lock `k` on. -/
def releasePcbLock (pid : Int) : Nat → Nat → State → Except Stop State
  | 0, _, s => .ok s
  | left + 1, k, s =>
    if (s.mlocks k).owner = pid then do
      let s ← doMutexLockRelease k s
      releasePcbLock pid left (k + 1) s
    else releasePcbLock pid left (k + 1) s

/-! ## Ending and awaiting processes -/

/-- The first PCB with the pid, whatever its status. -/
def findPid (pid : Int) (s : State) : Option Nat :=
  findFrom (fun i => (s.pcb i).pid = pid) numMaxTask 0

def doKill (cpu : Nat) (pid : Int) (now : Nat) (s : State) : Except Stop (Int × State) :=
  match findPid pid s with
  | none => .ok (0, s)
  | some i => do
    let s ← drainLoop Links.next i rounds s
    let s := setPcb i { s.pcb i with pid := 0 } s
    let s ← releasePcbLock pid lockNum 0 s
    match (s.pcb i).status with
    | .blocked | .ready => .ok (1, setStatus i .exited (delQueue i s))
    | .running => do
      let s ← doScheduler cpu now (setStatus i .exited s)
      .ok (1, s)
    | .exited | .available => .ok (0, s)

def doWaitpid (cpu : Nat) (pid : Int) (now : Nat) (s : State) : Except Stop (Int × State) := do
  match findPid pid s with
  | none => .ok (0, s)
  | some i =>
    if (s.pcb i).status ≠ .exited ∧ (s.pcb i).status ≠ .available then do
      let c ← current cpu s
      let s ← blockOn (.wait i) c s
      let s ← doScheduler cpu now s
      .ok (pid, s)
    else do
      let s ← doScheduler cpu now s
      .ok (pid, s)

/-! ## Barriers -/

def setBarrier (k : Nat) (b : Barrier) (s : State) : State :=
  { s with barriers := Function.update s.barriers k b }

def doBarrierInit (key goal : Int) (s : State) : Int × State :=
  match findFrom (fun k => (s.barriers k).key = -1) barrierNum 0 with
  | none => (-1, s)
  | some k => (k, setBarrier k ⟨key, goal⟩ s)

/-- The last task to arrive wakes the others. -/
def barrierLoop (k : Nat) : Nat → State → Except Stop State
  | 0, _ => .error .endless
  | fuel + 1, s =>
    if listIsEmpty (.barrier k) s.links then .ok s
    else do
      let s ← doUnblock (.barrier k) s
      barrierLoop k fuel (setBarrier k { s.barriers k with num := (s.barriers k).num + 1 } s)

def doBarrierWait (cpu k now : Nat) (s : State) : Except Stop State := do
  let i ← current cpu s
  if barrierNum ≤ k then .error .undefined
  else if (s.barriers k).num = 1 then do
    let s ← barrierLoop k rounds s
    doScheduler cpu now s
  else if (s.barriers k).num = -2 ^ 31 then .error .undefined
  else do
    let s ← blockOn (.barrier k) i s
    let s := setBarrier k { s.barriers k with num := (s.barriers k).num - 1 } s
    doScheduler cpu now s

def doBarrierDestroy (k : Nat) (s : State) : Except Stop State :=
  if barrierNum ≤ k then .error .undefined
  else if (s.barriers k).key = -1 then .ok s
  else .ok (setBarrier k ⟨-1, -1⟩ s)

/-! ## Initialisation -/

/-- `init_pcb` and the other tables after it, with the idle PCB running: the
shell is ready, the other PCBs are available and have no links yet. -/
def initState : State where
  pcb i := if i = 0 then ⟨1, .ready, 0, 3⟩ else ⟨-1, .available, 0, 0⟩
  links :=
    { next := fun n =>
        match n with
        | .ready => some (.task 0)
        | .sleep => some .sleep
        | .lock k => if k < lockNum then some (.lock k) else none
        | .barrier k => if k < barrierNum then some (.barrier k) else none
        | .cond k => if k < conditionNum then some (.cond k) else none
        | .wait i => if i = 0 then some (.wait 0) else none
        | .task i => if i = 0 then some .ready else none
      prev := fun n =>
        match n with
        | .ready => some (.task 0)
        | .sleep => some .sleep
        | .lock k => if k < lockNum then some (.lock k) else none
        | .barrier k => if k < barrierNum then some (.barrier k) else none
        | .cond k => if k < conditionNum then some (.cond k) else none
        | .wait i => if i = 0 then some (.wait 0) else none
        | .task i => if i = 0 then some .ready else none }
  coreRunning _ := .idle
  processId := 2
  mlocks _ := ⟨false, -1, 0⟩
  barriers _ := ⟨-1, -1⟩
  conditions _ := ⟨-1, -1, false⟩

end Sched
