import OslabRiscv.Kernel.Entry
import OslabRiscv.Lib.Outcome

/-!
# Harts under the kernel lock

Any number of harts run programs, trap, wait for the lock, run the kernel, switch to other
processes and return.  What the kernel's C code and the programs compute is left open: an event
says which registers and which memory they leave behind.  The code of `entry.S` and the effects of
the hardware on a trap and on `sret` are executed.

`Processes` is what programs and the kernel rely on: each process has registers of its own, that
nothing but itself, its system calls and its creation change.
-/

namespace Kernel

open Assembly ByteStore Cpu Outcome

/-! ## The hardware -/

inductive Mode
  | user
  | supervisor
  deriving DecidableEq, Repr

/-- Bit numbers of `sstatus`. -/
def bitSie : Nat := 1

def bitSpie : Nat := 5

def bitSpp : Nat := 8

def setBit (st : Word) (i : Nat) (b : Bool) : Word :=
  (st &&& ~~~BitVec.twoPow 64 i) ||| (if b then BitVec.twoPow 64 i else 0)

/-- `sstatus` behind a trap: interrupts are off, and the mode and whether they were on are kept. -/
def trapStatus (mode : Mode) (st : Word) : Word :=
  setBit (setBit (setBit st bitSpie (st.getLsbD bitSie)) bitSie false) bitSpp (mode = .supervisor)

/-- `sstatus` behind `sret`. -/
def sretStatus (st : Word) : Word :=
  setBit (setBit (setBit st bitSie (st.getLsbD bitSpie)) bitSpie true) bitSpp false

def sretMode (st : Word) : Mode := if st.getLsbD bitSpp then .supervisor else .user

theorem getLsbD_setBit (st : Word) {i : Nat} (hi : i < 64) (b : Bool) (j : Nat) :
    (setBit st i b).getLsbD j = if j = i then b else st.getLsbD j := by
  unfold setBit
  by_cases hj : j = i
  · subst hj
    cases b <;> simp [hi]
  · have hne : i ≠ j := Ne.symm hj
    by_cases hlt : j < 64
    · cases b <;> simp [hj, hlt]
    · have hout : st.getLsbD j = false := BitVec.getLsbD_of_ge st j (by omega)
      cases b <;> simp [hj, hne, hout]

/-- A trap right behind `sret` finds what `sret` found. -/
theorem trapStatus_sret {st : Word} (h : st.getLsbD bitSie = false) :
    trapStatus (sretMode st) (sretStatus st) = st := by
  apply BitVec.eq_of_getLsbD_eq
  intro j _
  unfold trapStatus sretStatus sretMode
  simp only [getLsbD_setBit _ (by decide : bitSie < 64), getLsbD_setBit _ (by decide : bitSpie < 64),
    getLsbD_setBit _ (by decide : bitSpp < 64)]
  by_cases hspp : j = bitSpp
  · subst hspp
    cases hb : st.getLsbD bitSpp <;> simp
  · by_cases hsie : j = bitSie
    · subst hsie
      rw [if_neg hspp, if_pos rfl, h]
    · by_cases hspie : j = bitSpie
      · subst hspie
        simp [bitSie, bitSpie, bitSpp]
      · simp [hspp, hsie, hspie]

theorem trapStatus_sie (mode : Mode) (st : Word) : (trapStatus mode st).getLsbD bitSie = false := by
  unfold trapStatus
  rw [getLsbD_setBit _ (by decide), if_neg (by decide), getLsbD_setBit _ (by decide), if_pos rfl]

/-! ## The machine -/

inductive LockStatus
  | unlocked
  | locked
  deriving DecidableEq, Repr

/-- How far a hart is on its way through the kernel: it runs a program, it has saved the context
and asks for the lock, it holds the lock, it has given it back. -/
inductive Stage
  | program
  | entered
  | kernel
  | leaving
  deriving DecidableEq, Repr

structure Hart where
  reg : Reg → Word
  csr : Csr → Word
  pc : Word
  mode : Mode
  stage : Stage

/-- The memory all harts share, with `large_kernel_lock`. -/
structure Machine (η : Type) where
  mem : Store
  lock : LockStatus
  hart : η → Hart

/-- Why a step is not taken. -/
inductive Stop
  | misaligned
  | otherStage
  deriving DecidableEq, Repr

/-- The registers a new process starts with. -/
structure Start where
  entry : Word
  userSp : Word
  a0 : Word
  a1 : Word
  status : Word

/-- The start of the shell in `init_pcb_stack`: `SR_SPIE | SR_SUM`. -/
def shellStart (entry userSp : Word) : Start := ⟨entry, userSp, 0, 0, 0x40020⟩

/-- What happens on hart `h`.  Programs and the C code of the kernel leave registers and memory. -/
inductive Event (η : Type)
  | compute (h : η) (reg : Reg → Word) (pc : Word) (mem : Store)
  | trap (h : η) (cause tval : Word)
  | swap (h : η) (reg : Reg → Word)
  | kernel (h : η) (reg : Reg → Word) (mem : Store)
  | advance (h : η)
  | result (h : η) (a0 : Word)
  | create (h : η) (pcb top : Nat) (start : Start) (ret : Word)
  | switch (h : η) (next : Nat)
  | leave (h : η)
  | resume (h : η)

def Event.hart {η : Type} : Event η → η
  | .compute h .. | .trap h .. | .swap h .. | .kernel h .. | .advance h | .result h .. |
    .create h .. | .switch h .. | .leave h | .resume h => h

/-- The stage a hart has to be in. -/
def Event.stage {η : Type} : Event η → Stage
  | .compute .. | .trap .. => .program
  | .swap .. => .entered
  | .kernel .. | .advance .. | .result .. | .create .. | .switch .. | .leave .. => .kernel
  | .resume .. => .leaving

/-! ## Steps -/

/-- Doublewords stored one after the other at offsets from a base. -/
def storeAll (base : Nat) (ws : List (Nat × Word)) (m : Store) : Store :=
  ws.foldl (fun m w => store 8 m (base + w.1) w.2.toNat) m

/-- The stores of `do_exec` into the frame of a new process, `pt_regs`. -/
def frameStores (pcb : Nat) (start : Start) : List (Nat × Word) :=
  (List.range 32).map (fun i => (8 * i, 0)) ++
    [(8, start.entry), (offsetRegTp, BitVec.ofNat 64 pcb), (offsetRegSepc, start.entry),
      (offsetRegSstatus, start.status), (offsetRegA0, start.a0), (88, start.a1),
      (offsetRegSp, start.userSp)]

/-- The memory behind the creation of a process with the kernel stack below `top`. -/
def initFrame (pcb top : Nat) (start : Start) (ret : Word) (m : Store) : Store :=
  let sp := top - offsetSize - switchToSize
  let m := storeAll (sp + switchToSize) (frameStores pcb start) m
  let m := storeAll sp [(0, ret), (8, BitVec.ofNat 64 sp)] m
  storeAll pcb [(pcbKernelSp, BitVec.ofNat 64 sp), (pcbUserSp, start.userSp)] m

section Step

variable {η : Type} [DecidableEq η]

def Hart.cpu (x : Hart) (m : Store) : Cpu := ⟨x.reg, x.csr, m⟩

/-- What the hardware does on a trap, before the first instruction of the handler. -/
def Hart.trapped (x : Hart) (cause tval : Word) : Hart :=
  let csr := Function.update x.csr .sepc x.pc
  let csr := Function.update csr .scause cause
  let csr := Function.update csr .stval tval
  let csr := Function.update csr .sstatus (trapStatus x.mode (x.csr .sstatus))
  { x with csr, pc := x.csr .stvec, mode := .supervisor }

def Hart.sret (x : Hart) : Hart :=
  { x with
    csr := Function.update x.csr .sstatus (sretStatus (x.csr .sstatus))
    pc := x.csr .sepc
    mode := sretMode (x.csr .sstatus) }

/-- The hart with the arguments of `switch_to`. -/
def Hart.calling (x : Hart) (next : Nat) : Hart :=
  { x with reg := Function.update (Function.update x.reg .a0 (x.reg .tp)) .a1 (BitVec.ofNat 64 next) }

/-- The instructions are executed on a hart. -/
def execute (is : List Instr) (x : Hart) (m : Store) : Except Stop (Hart × Store) :=
  match run is (x.cpu m) with
  | some s => .ok ({ x with reg := s.reg, csr := s.csr }, s.mem)
  | none => .error .misaligned

/-- The frame of the process on a hart. -/
def frameAt (x : Hart) (m : Store) : Nat :=
  (dword m (x.reg .tp).toNat + BitVec.ofNat 64 switchToSize).toNat

/-- What a step does to the hart, to the memory and to the lock. -/
def act (x : Hart) (m : Store) (l : LockStatus) : Event η → Except Stop (Hart × Store × LockStatus)
  | .compute _ reg pc mem => .ok ({ x with reg, pc }, mem, l)
  | .trap _ cause tval => do
    let (x, m) ← execute saveContext (x.trapped cause tval) m
    .ok ({ x with stage := .entered }, m, l)
  | .swap _ reg =>
    -- `amoswap` leaves the lock taken, and the old value says who took it
    .ok ({ x with reg, stage := if l = .unlocked then .kernel else .entered }, m, .locked)
  | .kernel _ reg mem => .ok ({ x with reg }, mem, l)
  | .advance _ =>
    let a := frameAt x m + offsetRegSepc
    .ok (x, store 8 m a (dword m a + 4).toNat, l)
  | .result _ a0 => .ok (x, store 8 m (frameAt x m + offsetRegA0) a0.toNat, l)
  | .create _ pcb top start ret => .ok (x, initFrame pcb top start ret m, l)
  | .switch _ next => do
    let (x, m) ← execute switchTo (x.calling next) m
    .ok ({ x with pc := x.reg .ra }, m, l)
  | .leave _ => .ok ({ x with stage := .leaving }, m, .unlocked)
  | .resume _ => do
    let (x, m) ← execute restoreContext x m
    .ok ({ x.sret with stage := .program }, m, l)

def step (e : Event η) (s : Machine η) : Except Stop (Machine η) :=
  if (s.hart e.hart).stage ≠ e.stage then .error .otherStage
  else do
    let (x, m, l) ← act (s.hart e.hart) s.mem s.lock e
    .ok ⟨m, l, Function.update s.hart e.hart x⟩

/-! ## What programs rely on -/

/-- The processes: the context of each, the registers it left in `switch_to`, its kernel stack if
it has one, and which of them each hart runs. -/
structure Processes (η : Type) where
  context : Nat → Context
  parked : Nat → Reg → Word
  stack : Nat → Option Nat
  cur : η → Nat

/-- The registers `switch_to` finds on a kernel stack. -/
def parkedAt (m : Store) (sp : Nat) (r : Reg) : Word :=
  match calleeRegs.lookup r with
  | some o => dword m (sp + o)
  | none => 0

def Start.context (start : Start) (pcb : Nat) : Context where
  reg
    | .ra => start.entry
    | .sp => start.userSp
    | .tp => BitVec.ofNat 64 pcb
    | .a0 => start.a0
    | .a1 => start.a1
    | _ => 0
  pc := start.entry
  status := start.status

/-- A program computes in its own context; a system call moves it past the `ecall` and gives it a
result; a new process has its first one.  Traps, the lock and switching change none. -/
def note (e : Event η) (s : Machine η) (a : Processes η) : Processes η :=
  let p := a.cur e.hart
  let c := a.context p
  match e with
  | .compute _ reg pc _ => { a with context := Function.update a.context p { c with reg, pc } }
  | .advance _ => { a with context := Function.update a.context p { c with pc := c.pc + 4 } }
  | .result _ a0 =>
    { a with context := Function.update a.context p { c with reg := Function.update c.reg .a0 a0 } }
  | .create _ pcb top start ret =>
    { a with
      context := Function.update a.context pcb (start.context pcb)
      parked := Function.update a.parked pcb
        (parkedAt (initFrame pcb top start ret s.mem) (top - offsetSize - switchToSize))
      stack := Function.update a.stack pcb (some (top - offsetSize - switchToSize)) }
  | .switch h next =>
    { a with
      parked := Function.update a.parked p (s.hart h).reg
      cur := Function.update a.cur h next }
  | _ => a

end Step

end Kernel
