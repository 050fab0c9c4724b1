import OslabRiscv.Lib.Outcome

/-!
# Paging

The page tables, page descriptors and the swap area of `mm.c`, and the page
fault handlers of `irq.c`.  Memory is seen in pages of 512 words, each page under
the kernel virtual address of its first byte; a word is split into the page
frame number and the ten attribute bits of a page table entry, whatever it is
used for.  The list of a process's page descriptors is a list of their indices
in `page_manager`.
-/

namespace Mm

def kvaOffset : Nat := 0xffffffc000000000

def pgdirPa : Nat := 0x51000000

def userStackAddr : Nat := 0xf00010000

/-- `PAGE_NUM`. -/
def pageNum : Nat := 300

def maxPagetableNum : Nat := 24

/-! ## Page table entries -/

/-- A word, as the bits from 10 on and the ten bits below. -/
structure Pte where
  pfn : Nat
  attr : BitVec 10
  deriving DecidableEq, Repr

def present : BitVec 10 := 1
def read : BitVec 10 := 2
def write : BitVec 10 := 4
def exec : BitVec 10 := 8
def user : BitVec 10 := 16
def accessed : BitVec 10 := 64
def dirty : BitVec 10 := 128
def inSd : BitVec 10 := 512

/-- One of the bits is set. -/
def Pte.has (e : Pte) (bits : BitVec 10) : Bool := e.attr &&& bits ≠ 0

def getPfn (e : Pte) : Nat := e.pfn % 2 ^ 44

def getPa (e : Pte) : Nat := getPfn e * 4096

def setPfn (pfn : Nat) (e : Pte) : Pte := { e with pfn := pfn % 2 ^ 54 }

def setAttribute (bits : BitVec 10) (e : Pte) : Pte := { e with attr := e.attr ||| bits }

/-- `clean_attribute` toggles. -/
def cleanAttribute (bits : BitVec 10) (e : Pte) : Pte := { e with attr := e.attr ^^^ bits }

def kva2pa (kva : Nat) : Nat := (kva + (2 ^ 64 - kvaOffset)) % 2 ^ 64

def pa2kva (pa : Nat) : Nat := (pa + kvaOffset) % 2 ^ 64

/-- The page an entry points to. -/
def pageOf (e : Pte) : Nat := pa2kva (getPa e)

def vpn2 (va : Nat) : Nat := va / 2 ^ 30 % 512
def vpn1 (va : Nat) : Nat := va / 2 ^ 21 % 512
def vpn0 (va : Nat) : Nat := va / 2 ^ 12 % 512

/-! ## State -/

inductive PageStatus
  | unused
  | swapable
  | unswapable
  | copyOnWrite
  | notInMem
  deriving DecidableEq, Repr

/-- `page_info_t`; a pointer to an entry is the page it is in and its index. -/
structure PageInfo where
  status : PageStatus
  readMember : Int
  kva : Nat
  uva : Nat
  pte : Option (Nat × Nat)
  deriving DecidableEq, Repr

/-- The paging part of a PCB. -/
structure Proc where
  live : Bool
  pgdir : Nat
  pagenum : Nat
  upbound : Nat
  pagehead : List Nat
  deriving DecidableEq, Repr

/-- Why a call does not return. -/
inductive Stop
  | assertFailed
  | undefined
  | endless
  deriving DecidableEq, Repr

/-- Memory, the descriptors with the static `page_id`, the next free page, the swap
area with the next sector, the processes, and the first sectors of all writes to the
swap area. -/
structure State where
  mem : Nat → Nat → Pte
  pages : Nat → PageInfo
  pageId : Nat
  kernMemCurr : Nat
  sd : Nat → Nat → Pte
  sector : Nat
  procs : Nat → Proc
  writes : List Nat

def setWord (t i : Nat) (e : Pte) (s : State) : State :=
  { s with mem := fun a j => if a = t ∧ j = i then e else s.mem a j }

def modifyWord (t i : Nat) (f : Pte → Pte) (s : State) : State := setWord t i (f (s.mem t i)) s

/-- Replace a whole page. -/
def setContent (t : Nat) (c : Nat → Pte) (s : State) : State :=
  { s with mem := fun a j => if a = t then c j else s.mem a j }

def clearPgdir (t : Nat) (s : State) : State := setContent t (fun _ => ⟨0, 0⟩) s

def setPage (id : Nat) (p : PageInfo) (s : State) : State :=
  { s with pages := fun k => if k = id then p else s.pages k }

def setProc (i : Nat) (p : Proc) (s : State) : State :=
  { s with procs := fun k => if k = i then p else s.procs k }

/-- Write a page to eight sectors. -/
def sdWrite (t sector : Nat) (s : State) : State :=
  { s with
    sd := fun c j => if sector ≤ c ∧ c < sector + 8 then s.mem t ((c - sector) * 64 + j) else s.sd c j
    writes := s.writes ++ [sector] }

/-- Read a page from eight sectors. -/
def sdRead (t sector : Nat) (s : State) : State :=
  setContent t (fun j => if j < 512 then s.sd (sector + j / 64) (j % 64) else s.mem t j) s

/-! ## Allocation and eviction -/

/-- `get_sector`. -/
def getSector (s : State) : Nat × State :=
  (s.sector, { s with sector := (s.sector + 8) % 2 ^ 32 })

/-- `allocPage(1)`. -/
def allocPage (s : State) : Nat × State :=
  let ret := (s.kernMemCurr + 4095) / 4096 * 4096
  (ret, { s with kernMemCurr := ret + 4096 })

/-- The search for an unused descriptor.  Behind the last one `page_id` is only set
back when that one was in use. -/
def findUnused : Nat → State → Except Stop (Nat × State)
  | 0, _ => .error .endless
  | fuel + 1, s =>
    if pageNum ≤ s.pageId then .error .undefined
    else if (s.pages s.pageId).status = .unused then
      .ok (s.pageId, { s with pageId := s.pageId + 1 })
    else if s.pageId + 1 = pageNum then findUnused fuel { s with pageId := 0 }
    else findUnused fuel { s with pageId := s.pageId + 1 }

/-- `get_pte`. -/
def getPte (va pgdir : Nat) (s : State) : Except Stop (Nat × Nat) :=
  if (s.mem pgdir (vpn2 va)).has present then
    let second := pageOf (s.mem pgdir (vpn2 va))
    if (s.mem second (vpn1 va)).has present then
      let third := pageOf (s.mem second (vpn1 va))
      if (s.mem third (vpn0 va)).has present then .ok (third, vpn0 va)
      else .error .assertFailed
    else .error .assertFailed
  else .error .assertFailed

/-- `get_swap_page`. -/
def getSwapPage (l : List Nat) (s : State) : Except Stop Nat :=
  match l.find? fun id => (s.pages id).status = .swapable with
  | some id => .ok id
  | none => .error .assertFailed

/-- `swap_to_sd`; the page that has become free is returned. -/
def swapToSd (id p : Nat) (s : State) : Except Stop (Nat × State) := do
  let (sectorId, s) := getSector s
  let kva := (s.pages id).kva
  let (t, i) ← getPte (s.pages id).uva (s.procs p).pgdir s
  let s := modifyWord t i (setAttribute inSd) s
  let s := modifyWord t i (cleanAttribute present) s
  let frame := pageOf (s.mem t i)
  let s := sdWrite frame sectorId s
  let s := clearPgdir frame s
  let s := modifyWord t i (setPfn sectorId) s
  let s := setPage id { s.pages id with pte := some (t, i), status := .notInMem, kva := 0 } s
  .ok (kva, s)

def doSwap (p : Nat) (s : State) : Except Stop (Nat × State) := do
  let id ← getSwapPage (s.procs p).pagehead s
  swapToSd id p s

/-- `allocPagetable`; the descriptor is returned. -/
def allocPagetable (p : Nat) (status : PageStatus) (s : State) : Except Stop (Nat × State) := do
  if (s.procs p).pagenum = (s.procs p).upbound then
    let (kva, s) ← doSwap p s
    let (id, s) ← findUnused (pageNum + 1) s
    let s := setPage id { s.pages id with status := status, kva := kva } s
    .ok (id, setProc p { s.procs p with pagehead := (s.procs p).pagehead ++ [id] } s)
  else
    let (id, s) ← findUnused (pageNum + 1) s
    let (kva, s) := allocPage s
    let s := setPage id { s.pages id with status := status, kva := kva } s
    .ok (id, setProc p { s.procs p with
      pagenum := (s.procs p).pagenum + 1
      pagehead := (s.procs p).pagehead ++ [id] } s)

/-! ## Walking -/

/-- The next level of a walk that makes what is missing: the table entry `i` of `t`
points to, or a new one. -/
def tableAt (p t i : Nat) (s : State) : Except Stop (Nat × State) := do
  if (s.mem t i).has present then .ok (pageOf (s.mem t i), s)
  else
    let (id, s) ← allocPagetable p .unswapable s
    let next := (s.pages id).kva
    let s := clearPgdir next s
    let s := modifyWord t i (setPfn (kva2pa next / 4096)) s
    .ok (next, modifyWord t i (setAttribute (present ||| user)) s)

/-- The attributes of a page of a process. -/
def leafAttr : BitVec 10 := accessed ||| dirty ||| present ||| user ||| read ||| write ||| exec

/-- `alloc_page_helper`. -/
def allocPageHelper (va p : Nat) (status : PageStatus) (s : State) : Except Stop (Nat × State) := do
  let (second, s) ← tableAt p (s.procs p).pgdir (vpn2 va) s
  let (third, s) ← tableAt p second (vpn1 va) s
  if (s.mem third (vpn0 va)).has present then .ok (pageOf (s.mem third (vpn0 va)), s)
  else
    let (id, s) ← allocPagetable p status s
    let s := setPage id { s.pages id with uva := va, pte := some (third, vpn0 va) } s
    let kva := (s.pages id).kva
    let s := modifyWord third (vpn0 va) (setPfn (kva2pa kva / 4096)) s
    .ok (kva, modifyWord third (vpn0 va) (setAttribute leafAttr) s)

/-- `build_page_helper`. -/
def buildPageHelper (va p pa : Nat) (s : State) : Except Stop State := do
  let (second, s) ← tableAt p (s.procs p).pgdir (vpn2 va) s
  let (third, s) ← tableAt p second (vpn1 va) s
  if (s.mem third (vpn0 va)).has present then .ok s
  else
    let s := modifyWord third (vpn0 va) (setPfn (pa / 4096)) s
    .ok (modifyWord third (vpn0 va) (setAttribute leafAttr) s)

/-- `pte_checker`. -/
def pteChecker (va pgdir : Nat) (s : State) : Option (Nat × Nat) :=
  if (s.mem pgdir (vpn2 va)).has present then
    let second := pageOf (s.mem pgdir (vpn2 va))
    if (s.mem second (vpn1 va)).has present then
      let third := pageOf (s.mem second (vpn1 va))
      if (s.mem third (vpn0 va)).has present || (s.mem third (vpn0 va)).has inSd then
        some (third, vpn0 va)
      else none
    else none
  else none

/-- The search through a process's descriptors that does not notice when it fails: it
then ends on the last one. -/
def findPage (P : PageInfo → Bool) (l : List Nat) (s : State) : Except Stop Nat :=
  match l.find? fun id => P (s.pages id) with
  | some id => .ok id
  | none =>
    match l.getLast? with
    | some id => .ok id
    | none => .error .undefined

/-- `swap_to_mem`. -/
def swapToMem (t i va kva p : Nat) (s : State) : Except Stop State := do
  let sectorId := getPfn (s.mem t i) % 2 ^ 32
  let id ← findPage (fun q => q.pte = some (t, i)) (s.procs p).pagehead s
  if (s.pages id).status ≠ .notInMem then .error .assertFailed
  else if (s.pages id).kva ≠ 0 then .error .assertFailed
  else
    let s := setPage id { s.pages id with status := .swapable, uva := va, kva := kva } s
    let s := sdRead kva sectorId s
    let s := modifyWord t i (cleanAttribute inSd) s
    let s := modifyWord t i (setAttribute present) s
    .ok (modifyWord t i (setPfn (kva2pa kva / 4096)) s)

/-! ## Page faults -/

/-- The branch of both handlers for a page in the swap area.  `kva` is only set when
the process has all its pages. -/
def swapIn (t i stval p : Nat) (s : State) : Except Stop State := do
  if (s.procs p).pagenum = (s.procs p).upbound then
    let (kva, s) ← doSwap p s
    swapToMem t i stval kva p s
  else .error .undefined

def handleLoadPageFault (p stval : Nat) (s : State) : Except Stop State :=
  match pteChecker stval (s.procs p).pgdir s with
  | none => do
    let (_, s) ← allocPageHelper stval p .swapable s
    .ok s
  | some (t, i) =>
    if (s.mem t i).has inSd then swapIn t i stval p s
    else if (s.mem t i).has accessed then .error .assertFailed
    else .ok (modifyWord t i (setAttribute accessed) s)

/-- The copy-on-write branch.  The page is copied onto itself. -/
def copyOnWrite (t i stval p : Nat) (s : State) : Except Stop State := do
  let kva := pageOf (s.mem t i)
  let id ← findPage (fun q => q.kva = kva) (s.procs p).pagehead s
  if (s.pages id).status ≠ .copyOnWrite then .error .assertFailed
  else if (s.pages id).readMember = 1 then
    let s := setPage id { s.pages id with readMember := 0 } s
    let s := modifyWord t i (setAttribute write) s
    .ok (setPage id { s.pages id with status := .swapable } s)
  else
    let s := setPage id { s.pages id with readMember := (s.pages id).readMember - 1 } s
    let s := modifyWord t i (cleanAttribute present) s
    let (new, s) ← allocPagetable p .swapable s
    let s ← buildPageHelper stval p (kva2pa (s.pages new).kva) s
    .ok (setContent kva (s.mem (s.pages id).kva) s)

def handleStorePageFault (p stval : Nat) (s : State) : Except Stop State :=
  match pteChecker stval (s.procs p).pgdir s with
  | none => do
    let (_, s) ← allocPageHelper stval p .swapable s
    .ok s
  | some (t, i) =>
    if (s.mem t i).has inSd then swapIn t i stval p s
    else if (s.mem t i).has write then
      if (s.mem t i).has accessed then .error .assertFailed
      else .ok (modifyWord t i (setAttribute (accessed ||| dirty)) s)
    else copyOnWrite t i stval p s

/-! ## Snapshots -/

/-- The first page behind `va` that is not mapped. -/
def probe (pgdir : Nat) (s : State) : Nat → Nat → Except Stop Nat
  | 0, _ => .error .endless
  | fuel + 1, va =>
    let va := (va + 4096) % 2 ^ 64
    if pteChecker va pgdir s = none then .ok va else probe pgdir s fuel va

/-- `do_snapshot`; the address of the new mapping is returned. -/
def doSnapshot (p va : Nat) (s : State) : Except Stop (Nat × State) :=
  match pteChecker va (s.procs p).pgdir s with
  | none => .error .undefined
  | some (t, i) => do
    let kva := pageOf (s.mem t i)
    let id ← findPage (fun q => q.kva = kva) (s.procs p).pagehead s
    let newVa ← probe (s.procs p).pgdir s (2 ^ 27) va
    let s :=
      if (s.pages id).status ≠ .copyOnWrite then
        setPage id { s.pages id with status := .copyOnWrite, readMember := 2 }
          (modifyWord t i (cleanAttribute write) s)
      else setPage id { s.pages id with readMember := (s.pages id).readMember + 1 } s
    let s ← buildPageHelper newVa p (kva2pa (s.pages id).kva) s
    match pteChecker newVa (s.procs p).pgdir s with
    | none => .error .undefined
    | some (t', i') => .ok (newVa, modifyWord t' i' (cleanAttribute write) s)

/-! ## Processes -/

/-- `share_pgtable` with the kernel's root table. -/
def sharePgtable (pgdir : Nat) (s : State) : State :=
  setContent pgdir (s.mem (pa2kva pgdirPa)) s

/-- The loop of `load_task_img`: the pages of the image with their content. -/
def loadTaskImg (p : Nat) : List (Nat × (Nat → Pte)) → State → Except Stop State
  | [], s => .ok s
  | (va, c) :: rest, s => do
    let (kva, s) ← allocPageHelper va p .unswapable s
    loadTaskImg p rest (setContent kva c s)

/-- The paging part of `do_exec` and `init_pcb`: root table, kernel stack, user stack
and image.  `stack` and `args` are what is put on the two stacks. -/
def doExec (p : Nat) (stack args : Nat → Pte) (image : List (Nat × (Nat → Pte))) (s : State) :
    Except Stop State := do
  let s := setProc p ⟨true, 0, 0, maxPagetableNum, []⟩ s
  let (id, s) ← allocPagetable p .unswapable s
  let pgdir := (s.pages id).kva
  let s := setProc p { s.procs p with pgdir := pgdir } s
  let s := sharePgtable pgdir (clearPgdir pgdir s)
  let (id, s) ← allocPagetable p .unswapable s
  let s := setContent (s.pages id).kva stack s
  let (kva, s) ← allocPageHelper (userStackAddr - 4096) p .unswapable s
  loadTaskImg p image (setContent kva args s)

/-! ## Translation by the hardware -/

/-- The entry the hardware ends its walk on, with its level: one with a permission
bit is a leaf on every level. -/
def translate (va pgdir : Nat) (s : State) : Option (Pte × Nat) :=
  let top := s.mem pgdir (vpn2 va)
  if !top.has present then none
  else if top.has (read ||| write ||| exec) then some (top, 2)
  else
    let second := s.mem (pageOf top) (vpn1 va)
    if !second.has present then none
    else if second.has (read ||| write ||| exec) then some (second, 1)
    else
      let third := s.mem (pageOf second) (vpn0 va)
      if third.has present && third.has (read ||| write ||| exec) then some (third, 0) else none

/-- A user program stores a word.  Where the hardware does not let it, nothing is
stored; the fault that is raised instead is an event of its own. -/
def put (p va : Nat) (word : Pte) (s : State) : State :=
  match translate va (s.procs p).pgdir s with
  | some (e, 0) => if e.has user && e.has write then setWord (pageOf e) (va / 8 % 512) word s else s
  | _ => s

/-! ## Runs -/

/-- What happens to the memory of processes. -/
inductive Event
  | exec (p : Nat) (stack args : Nat → Pte) (image : List (Nat × (Nat → Pte)))
  | load (p stval : Nat)
  | store (p stval : Nat)
  | put (p va : Nat) (word : Pte)
  | snapshot (p va : Nat)

/-- A process that has not been started does nothing. -/
def handle : Event → State → Except Stop State
  | .exec p stack args image, s => doExec p stack args image s
  | .load p stval, s => if (s.procs p).live then handleLoadPageFault p stval s else .ok s
  | .store p stval, s => if (s.procs p).live then handleStorePageFault p stval s else .ok s
  | .put p va word, s => .ok (if (s.procs p).live then put p va word s else s)
  | .snapshot p va, s =>
    if (s.procs p).live then (doSnapshot p va s).map Prod.snd else .ok s

/-- `FREEMEM_KERNEL`. -/
def freememKernel : Nat := 0xffffffc052003000

/-- The state `init_pagetable` leaves: all descriptors unused, all counters at their
first values, no process. -/
structure Booted (s : State) : Prop where
  pages : ∀ id, s.pages id = ⟨.unused, 0, 0, 0, none⟩
  pageId : s.pageId = 0
  kernMemCurr : s.kernMemCurr = freememKernel
  sector : s.sector = 2048
  procs : ∀ p, s.procs p = ⟨false, 0, 0, 0, []⟩
  writes : s.writes = []

/-- The page tables `setup_vm` makes: the kernel's memory and the boot addresses in
pages of 2 MB, with a second-level table for each. -/
def setupVm (t i : Nat) : Pte :=
  let large : Pte := ⟨(0x50000000 + (i - 128) * 0x200000) / 4096,
    present ||| read ||| write ||| exec ||| accessed ||| dirty⟩
  if t = pa2kva pgdirPa then
    if i = 257 then ⟨(pgdirPa + 0x1000) / 4096, present⟩
    else if i = 1 then ⟨(pgdirPa + 0x2000) / 4096, present⟩
    else ⟨0, 0⟩
  else if t = pa2kva (pgdirPa + 0x1000) then if 128 ≤ i ∧ i < 256 then large else ⟨0, 0⟩
  else if t = pa2kva (pgdirPa + 0x2000) then if 128 ≤ i ∧ i < 136 then large else ⟨0, 0⟩
  else ⟨0, 0⟩

def bootState : State where
  mem := setupVm
  pages := fun _ => ⟨.unused, 0, 0, 0, none⟩
  pageId := 0
  kernMemCurr := freememKernel
  sd := fun _ _ => ⟨0, 0⟩
  sector := 2048
  procs := fun _ => ⟨false, 0, 0, 0, []⟩
  writes := []

theorem bootState_booted : Booted bootState :=
  ⟨fun _ => rfl, rfl, rfl, rfl, fun _ => rfl, rfl⟩

def blank (_ : Nat) : Pte := ⟨0, 0⟩

end Mm
