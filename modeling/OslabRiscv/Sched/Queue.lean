import OslabRiscv.Lib.IntrusiveList

/-!
# PCBs and their queues

The process table of `kernel/sched/sched.c` with the mutexes, barriers and condition
variables of `kernel/locking/lock.c`, and the queue operations of `include/os/list.h` on
them.  A list node is named by where it is embedded: every PCB has the node
`list`, by which it is queued, and the head `wait_list`.

Code that cannot go on is a `Stop`: a failed `assert` or a deliberate
`while (1)`, what C leaves undefined (a null pointer followed, an index out of
bounds, a signed overflow, a queue node that is no PCB's), and a loop that does
not end.  The idle PCB of a core makes no system call and is never queued, so a
call made while it runs is undefined here.
-/

namespace Sched

open IntrusiveList

def numMaxTask : Nat := 16
def lockNum : Nat := 16
def barrierNum : Nat := 16
def conditionNum : Nat := 16

/-- `task_status_t`. -/
inductive Status
  | blocked
  | running
  | ready
  | exited
  | available
  deriving DecidableEq, Repr

/-- The list nodes: the queue heads, and the node `list` of each PCB. -/
inductive Node
  | ready
  | sleep
  | lock (i : Nat)
  | barrier (i : Nat)
  | cond (i : Nat)
  | wait (i : Nat)
  | task (i : Nat)
  deriving DecidableEq, Repr

/-- What `core_running` points to. -/
inductive Who
  | idle
  | task (i : Nat)
  deriving DecidableEq, Repr

/-- The fields of `pcb_t` that scheduling uses.  `mask` is a bit pattern. -/
structure Pcb where
  pid : Int
  status : Status
  wakeupTime : Nat
  mask : Nat
  deriving DecidableEq, Repr

/-- `mutex_lock_t` without its queue. -/
structure MutexLock where
  locked : Bool
  owner : Int
  key : Int
  deriving DecidableEq, Repr

/-- `barrier_t` without its queue. -/
structure Barrier where
  key : Int
  num : Int
  deriving DecidableEq, Repr

/-- `condition_t` without its queue. -/
structure Condition where
  key : Int
  lockIdx : Int
  valid : Bool
  deriving DecidableEq, Repr

/-- Why a call does not return. -/
inductive Stop
  | panic
  | undefined
  | endless
  deriving DecidableEq, Repr

structure State where
  pcb : Nat → Pcb
  links : Links Node
  coreRunning : Nat → Who
  processId : Int
  mlocks : Nat → MutexLock
  barriers : Nat → Barrier
  conditions : Nat → Condition

/-! ## Lists (`list.h`) -/

/-- `__list_add`. -/
def listAdd (prev node next : Node) (l : Links Node) : Links Node :=
  let l := l.setNext node (some next)
  let l := l.setPrev node (some prev)
  let l := l.setNext prev (some node)
  l.setPrev next (some node)

/-- `_list_add_tail`. -/
def listAddTail (node head : Node) (l : Links Node) : Except Stop (Links Node) :=
  match l.prev head with
  | some p => .ok (listAdd p node head l)
  | none => .error .undefined

/-- `list_del`. -/
def listDel (node : Node) (l : Links Node) : Links Node :=
  match l.prev node, l.next node with
  | some p, some n =>
    let l := l.setNext p (some n)
    let l := l.setPrev n (some p)
    let l := l.setPrev node none
    l.setNext node none
  | _, _ => l

/-- `init_list_head`. -/
def initListHead (head : Node) (l : Links Node) : Links Node :=
  (l.setNext head (some head)).setPrev head (some head)

/-- `list_is_empty`. -/
def listIsEmpty (head : Node) (l : Links Node) : Bool := l.next head = some head

/-! ## Queues of PCBs -/

/-- Replace an entry of the process table. -/
def setPcb (i : Nat) (p : Pcb) (s : State) : State :=
  { s with pcb := Function.update s.pcb i p }

def setStatus (i : Nat) (st : Status) (s : State) : State :=
  setPcb i { s.pcb i with status := st } s

def addQueue (head : Node) (i : Nat) (s : State) : Except Stop State := do
  let l ← listAddTail (.task i) head s.links
  .ok { s with links := l }

def delQueue (i : Nat) (s : State) : State := { s with links := listDel (.task i) s.links }

/-- `get_head`: the first PCB of a queue, taken out of it. -/
def getHead (head : Node) (s : State) : Except Stop (Nat × State) :=
  match s.links.next head with
  | some (.task i) => .ok (i, delQueue i s)
  | _ => .error .undefined

def doUnblock (head : Node) (s : State) : Except Stop State := do
  let (i, s) ← getHead head s
  addQueue .ready i (setStatus i .ready s)

end Sched
