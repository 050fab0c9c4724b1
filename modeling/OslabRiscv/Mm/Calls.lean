import OslabRiscv.Mm.Paging

/-!
# Threads and shared pages

The calls beside `do_exec` that take pages: `do_thread_create`, which shares the
tables of its caller, `do_taskset_exec`, which takes none of its own, and the two
calls for shared memory with their table.
-/

namespace Mm

/-! ## Threads -/

/-- The paging part of `do_thread_create`.  `share_pgtable` copies the root table onto
itself. -/
def doThreadCreate (p father childnum : Nat) (stack : Nat → Pte) (s : State) :
    Except Stop State := do
  let s := setProc p ⟨true, (s.procs father).pgdir, 0, maxPagetableNum, []⟩ s
  let (id, s) ← allocPagetable p .unswapable s
  let s := setContent (s.pages id).kva stack s
  let (_, s) ← allocPageHelper (userStackAddr + childnum * 4096 - 4096) p .unswapable s
  .ok s

/-- The paging part of `do_taskset_exec`.  A slot that has never been used gets two
pages for its stacks and no tables.  `load_task_img` gets the root table for a PCB,
so that an image with pages is not loaded. -/
def doTasksetExec (unused : Bool) (image : List (Nat × (Nat → Pte))) (s : State) :
    Except Stop State :=
  if image ≠ [] then .error .undefined
  else if unused then .ok (allocPage (allocPage s).2).2
  else .ok s

/-! ## Shared pages -/

def numMaxShm : Nat := 16

/-- `shm_t`: `key` has 16 bits and `num` 32. -/
structure Shm where
  valid : Bool
  key : Nat
  num : Nat
  pa : Nat
  deriving DecidableEq, Repr

/-- The pages of all processes, the table of the shared ones, and how many a process
has attached (`shm_page_num`). -/
structure Vm where
  state : State
  shm : Nat → Shm
  shmPageNum : Nat → Nat

def setShm (k : Nat) (e : Shm) (v : Vm) : Vm :=
  { v with shm := fun j => if j = k then e else v.shm j }

/-- The entry for a key, or else one that is free; a free one takes the key over, cut
to its field. -/
def shmSlot (key : Int) (v : Vm) : Except Stop (Nat × Vm) :=
  match (List.range numMaxShm).find? fun k => ((v.shm k).key : Int) = key ∧ (v.shm k).valid with
  | some k => .ok (k, v)
  | none =>
    match (List.range numMaxShm).find? fun k => !(v.shm k).valid with
    | some k => .ok (k, setShm k { v.shm k with key := (key % 2 ^ 16).toNat } v)
    | none => .error .assertFailed

/-- `shm_page_get`; the address is returned. -/
def shmPageGet (p : Nat) (key : Int) (v : Vm) : Except Stop (Nat × Vm) := do
  let (k, v) ← shmSlot key v
  let n := (v.shmPageNum p + 1) % 2 ^ 64
  let vaddr := (userStackAddr + (2 ^ 64 - (n + 1) * 4096 % 2 ^ 64)) % 2 ^ 64
  let count := fun i => if i = p then n else v.shmPageNum i
  if (v.shm k).valid = false then
    let (id, s) ← allocPagetable p .unswapable v.state
    let pa := kva2pa (s.pages id).kva
    let s ← buildPageHelper vaddr p pa s
    let s := clearPgdir (pa2kva pa) s
    .ok (vaddr, setShm k { v.shm k with pa := pa, num := ((v.shm k).num + 1) % 2 ^ 32, valid := true }
      { v with state := s, shmPageNum := count })
  else
    let s ← buildPageHelper vaddr p (v.shm k).pa v.state
    .ok (vaddr, setShm k { v.shm k with num := ((v.shm k).num + 1) % 2 ^ 32 }
      { v with state := s, shmPageNum := count })

/-- `shm_page_dt`. -/
def shmPageDt (p addr : Nat) (v : Vm) : Except Stop Vm :=
  match pteChecker addr (v.state.procs p).pgdir v.state with
  | none => .error .undefined
  | some (t, i) =>
    let pa := (v.state.mem t i).pfn * 4096 % 2 ^ 64
    match (List.range numMaxShm).find? fun k => (v.shm k).pa ≠ pa with
    | none => .ok v
    | some k =>
      let num := ((v.shm k).num + (2 ^ 32 - 1)) % 2 ^ 32
      .ok (setShm k { v.shm k with num := num, valid := if num = 0 then false else (v.shm k).valid }
        { v with state := setWord t i ⟨0, 0⟩ v.state })

end Mm
