import OslabRiscv.Lib.Outcome
import OslabRiscv.Lib.RingBuffer

/-!
# Mailboxes

`do_mbox_send` and `do_mbox_recv` of `lock.c` on one entry of `mboxs`; a call on
another entry touches nothing of this one.  The kernel runs without interruption
from one call of `do_scheduler` to the next, so a step of the machine is such a
stretch: a process makes a call, or a process that was woken goes on where it
was suspended.

`head` and `tail` are of type `int`: counting past the largest is undefined.
-/

namespace Mbox

variable {π : Type} [DecidableEq π]

def maxMboxLength : Nat := 64

/-- `INT_MAX`. -/
def intMax : Nat := 2 ^ 31 - 1

/-- Why a step cannot be made: an overflow, or the process cannot run. -/
inductive Stop
  | undefined
  | notRunnable
  deriving DecidableEq, Repr

/-- `mailbox_t`; the name is not used by the two calls. -/
structure Mailbox (π : Type) where
  valid : Bool
  content : Nat → UInt8
  head : Nat
  tail : Nat
  userNum : Int
  locked : Bool
  lockQueue : List π
  fullQueue : List π
  emptyQueue : List π

/-- A call with its arguments. -/
inductive Request
  | send (msg : List UInt8)
  | recv (len : Nat)
  deriving DecidableEq, Repr

/-- `msg_length`. -/
def Request.length : Request → Nat
  | .send msg => msg.length
  | .recv len => len

/-- The `do_scheduler` at which a process is suspended: after it queued up for
the lock, or for room or data. -/
inductive Spot
  | lock
  | wait
  deriving DecidableEq, Repr

/-- A process inside a call: it waits, or it was woken and may run. -/
structure Inside where
  request : Request
  spot : Spot
  ready : Bool
  blocked : Nat
  deriving DecidableEq, Repr

/-- A call that has returned, with what it returned. -/
inductive Event (π : Type)
  | sent (p : π) (msg : List UInt8) (blocked : Nat)
  | received (p : π) (len : Nat) (bytes : List UInt8)
  | refused (p : π)
  deriving DecidableEq, Repr

/-- The mailbox, the processes inside a call on it, and the calls that have
returned, in order. -/
structure State (π : Type) where
  box : Mailbox π
  proc : π → Option Inside
  log : List (Event π)

/-! ## Queues -/

inductive Which
  | lock
  | full
  | empty
  deriving DecidableEq, Repr

def Mailbox.queue (b : Mailbox π) : Which → List π
  | .lock => b.lockQueue
  | .full => b.fullQueue
  | .empty => b.emptyQueue

def Mailbox.setQueue (b : Mailbox π) (k : Which) (q : List π) : Mailbox π :=
  match k with
  | .lock => { b with lockQueue := q }
  | .full => { b with fullQueue := q }
  | .empty => { b with emptyQueue := q }

/-- The process may run again. -/
def markReady (p : π) (s : State π) : State π :=
  { s with proc := Function.update s.proc p ((s.proc p).map fun c => { c with ready := true }) }

/-- `do_unblock` of the first process of a queue, unless the queue is empty. -/
def unblockOne (k : Which) (s : State π) : State π :=
  match s.box.queue k with
  | [] => s
  | p :: rest => markReady p { s with box := s.box.setQueue k rest }

/-- As many rounds of `do_unblock` as given. -/
def unblockLoop (k : Which) : Nat → State π → State π
  | 0, s => s
  | n + 1, s => unblockLoop k n (unblockOne k s)

/-- `while(!list_is_empty(..)) do_unblock(..)`. -/
def unblockAll (k : Which) (s : State π) : State π :=
  unblockLoop k (s.box.queue k).length s

/-- The process is blocked, queued and suspended. -/
def suspend (p : π) (k : Which) (c : Inside) (s : State π) : State π :=
  { s with
    box := s.box.setQueue k (s.box.queue k ++ [p])
    proc := Function.update s.proc p (some c) }

/-- The lock is released and the first process waiting for it woken. -/
def releaseLock (s : State π) : State π :=
  unblockOne .lock { s with box := { s.box with locked := false } }

/-- The call returns. -/
def leave (p : π) (e : Event π) (s : State π) : State π :=
  { s with proc := Function.update s.proc p none, log := s.log ++ [e] }

/-! ## The calls -/

/-- The loop of `do_mbox_send` that copies the message in. -/
def sendLoop : List UInt8 → Mailbox π → Except Stop (Mailbox π)
  | [], b => .ok b
  | c :: cs, b =>
    if b.tail = intMax then .error .undefined
    else
      sendLoop cs { b with
        content := Function.update b.content (b.tail % maxMboxLength) c
        tail := b.tail + 1 }

/-- The loop of `do_mbox_recv` that copies bytes out. -/
def recvLoop : Nat → Mailbox π → Except Stop (List UInt8 × Mailbox π)
  | 0, b => .ok ([], b)
  | n + 1, b =>
    if b.head = intMax then .error .undefined
    else do
      let (bytes, b') ← recvLoop n { b with head := b.head + 1 }
      .ok (b.content (b.head % maxMboxLength) :: bytes, b')

/-- The free space for a sender, the data at hand for a receiver. -/
def lengthFor (b : Mailbox π) : Request → Int
  | .send _ => maxMboxLength - ((b.tail : Int) - b.head)
  | .recv _ => (b.tail : Int) - b.head

/-- Where a sender waits for room and a receiver for data. -/
def Request.queue : Request → Which
  | .send _ => .empty
  | .recv _ => .full

/-- Where the processes wait that a completed call may wake. -/
def Request.counter : Request → Which
  | .send _ => .full
  | .recv _ => .empty

/-- The copying loop of a call, with the event of its return. -/
def transfer (p : π) (blocked : Nat) (b : Mailbox π) :
    Request → Except Stop (Event π × Mailbox π)
  | .send msg => do
    let b ← sendLoop msg b
    .ok (.sent p msg blocked, b)
  | .recv len => do
    let (bytes, b) ← recvLoop len b
    .ok (.received p len bytes, b)

/-- `full` of `do_mbox_send` and `empty` of `do_mbox_recv`. -/
def extreme (b : Mailbox π) : Request → Bool
  | .send _ => b.head + maxMboxLength = b.tail
  | .recv _ => b.head = b.tail

/-- What follows the copying loop: where the box became full or empty all
processes waiting for that are woken, then the lock is released, and one more is
woken. -/
def wakeUps (k : Which) (all : Bool) (s : State π) : State π :=
  let s := if all then unblockAll k s else s
  let s := releaseLock s
  unblockOne k { s with box := { s.box with userNum := s.box.userNum - 1 } }

/-- From the copying loop to the return. -/
def complete (p : π) (c : Request) (blocked : Nat) (s : State π) : Except Stop (State π) := do
  let (e, b) ← transfer p blocked s.box c
  .ok (leave p e (wakeUps c.counter (extreme b c) { s with box := b }))

/-- With the lock taken: the test of the `while` loop.  Where it holds the lock is
released and the process waits. -/
def critical (p : π) (c : Request) (blocked : Nat) (s : State π) : Except Stop (State π) :=
  if (c.length : Int) > lengthFor s.box c then
    .ok (suspend p c.queue ⟨c, .wait, false, blocked + 1⟩ (releaseLock s))
  else complete p c blocked s

/-- Taking the lock, or queueing up for it. -/
def acquire (p : π) (c : Request) (blocked : Nat) (s : State π) : Except Stop (State π) :=
  if s.box.locked then .ok (suspend p .lock ⟨c, .lock, false, blocked + 1⟩ s)
  else critical p c blocked { s with box := { s.box with locked := true } }

/-- The two calls up to their first `do_scheduler`, or to their return. -/
def enter (p : π) (c : Request) (s : State π) : Except Stop (State π) :=
  if s.box.valid = false then .ok { s with log := s.log ++ [.refused p] }
  else acquire p c 0 { s with box := { s.box with userNum := s.box.userNum + 1 } }

def doMboxSend (p : π) (msg : List UInt8) (s : State π) : Except Stop (State π) :=
  enter p (.send msg) s

def doMboxRecv (p : π) (len : Nat) (s : State π) : Except Stop (State π) :=
  enter p (.recv len) s

/-- A suspended call goes on.  The process that queued up for the lock does not
look at it again. -/
def goOn (p : π) (c : Inside) (s : State π) : Except Stop (State π) :=
  match c.spot with
  | .lock => critical p c.request c.blocked s
  | .wait => acquire p c.request c.blocked s

/-! ## Interleavings -/

inductive Act (π : Type)
  | send (p : π) (msg : List UInt8)
  | recv (p : π) (len : Nat)
  | resume (p : π)
  deriving DecidableEq, Repr

/-- A stretch of one process between two scheduling points. -/
def step (a : Act π) (s : State π) : Except Stop (State π) :=
  match a with
  | .send p msg => if s.proc p = none then doMboxSend p msg s else .error .notRunnable
  | .recv p len => if s.proc p = none then doMboxRecv p len s else .error .notRunnable
  | .resume p =>
    match s.proc p with
    | none => .error .notRunnable
    | some c => if c.ready then goOn p c s else .error .notRunnable

/-- A mailbox as `init_mbox` and `do_mbox_open` leave it. -/
def initMbox : State π where
  box :=
    { valid := true
      content := fun _ => 0
      head := 0
      tail := 0
      userNum := 0
      locked := false
      lockQueue := []
      fullQueue := []
      emptyQueue := [] }
  proc := fun _ => none
  log := []

end Mbox
