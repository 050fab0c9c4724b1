import OslabRiscv.Mm.Ledger
import OslabRiscv.Sched.Pointers

/-!
# Switching address spaces

`do_scheduler` writes `satp` when the next PCB has another root table.  A `System` is
the scheduler beside the memory of the processes; `do_exec`, `do_thread_create` and
`do_taskset_exec` change both.
-/

namespace Sched

open IntrusiveList Outcome

/-! ## `do_taskset` -/

/-- `do_taskset_exec`, without the pages it takes. -/
def doTasksetExec (mask : Nat) (s : State) : Except Stop State :=
  match freeSlot s with
  | none => .error .panic
  | some i =>
    if s.processId = 2 ^ 31 - 1 then .error .undefined
    else newTask i s.processId mask { s with processId := s.processId + 1 }

/-- `do_taskset_chg`. -/
def doTasksetChg (pid : Int) (mask : Nat) (s : State) : Except Stop State :=
  match findPid pid s with
  | none => .error .panic
  | some i => .ok (setPcb i { s.pcb i with mask := mask } s)

/-! ## The system -/

/-- The scheduler, the memory, and how many threads a PCB has created (`childnum`). -/
structure System where
  sched : State
  vm : Mm.Vm
  childnum : Nat → Nat

/-- What a call finds in memory: the two stacks and the pages of an image. -/
structure Load where
  stack : Nat → Mm.Pte
  args : Nat → Mm.Pte
  image : List (Nat × (Nat → Mm.Pte))

/-- A kernel entry on a core, or something a process does to its memory. -/
inductive Entry
  | call (cpu : Nat) (c : Call) (load : Load)
  | tasksetExec (cpu mask : Nat) (load : Load)
  | tasksetChg (cpu : Nat) (pid : Int) (mask : Nat)
  | shmGet (cpu : Nat) (key : Int)
  | shmDt (cpu addr : Nat)
  | page (e : Mm.Event)

/-- The core of an entry. -/
def Entry.cpu : Entry → Option Nat
  | .call cpu _ _ | .tasksetExec cpu _ _ | .tasksetChg cpu _ _ | .shmGet cpu _ | .shmDt cpu _ =>
    some cpu
  | .page _ => none

/-- The memory after a call. -/
def callPages (cpu : Nat) (c : Call) (load : Load) (y : System) :
    Except Mm.Stop (Mm.Vm × (Nat → Nat)) :=
  match c, freeSlot y.sched, y.sched.coreRunning cpu with
  | .exec, some i, _ => do
    let s ← Mm.doExec i load.stack load.args load.image y.vm.state
    .ok ({ y.vm with state := s }, Function.update y.childnum i 0)
  | .threadCreate, some i, .task f => do
    let n := y.childnum f + 1
    let s ← Mm.doThreadCreate i f n load.stack y.vm.state
    .ok ({ y.vm with state := s }, Function.update y.childnum f n)
  | _, _, _ => .ok (y.vm, y.childnum)

/-- A slot that has never been used. -/
def unusedSlot (s : State) : Bool :=
  match freeSlot s with
  | some i => decide ((s.pcb i).status = .available)
  | none => false

/-- `do_exec` only comes with its call. -/
def isExec : Mm.Event → Bool
  | .exec _ _ _ _ => true
  | _ => false

def System.step : Entry → System → Except (Stop ⊕ Mm.Stop) System
  | .call cpu c load, y => do
    let s ← (Sched.step cpu c y.sched).mapError Sum.inl
    let (vm, childnum) ← (callPages cpu c load y).mapError Sum.inr
    .ok ⟨s, vm, childnum⟩
  | .tasksetExec cpu mask load, y => do
    let _ ← (current cpu y.sched).mapError Sum.inl
    let s ← (doTasksetExec mask y.sched).mapError Sum.inl
    let m ← (Mm.doTasksetExec (unusedSlot y.sched) load.image y.vm.state).mapError Sum.inr
    .ok { y with sched := s, vm := { y.vm with state := m } }
  | .tasksetChg cpu pid mask, y => do
    let _ ← (current cpu y.sched).mapError Sum.inl
    let s ← (doTasksetChg pid mask y.sched).mapError Sum.inl
    .ok { y with sched := s }
  | .shmGet cpu key, y => do
    let p ← (current cpu y.sched).mapError Sum.inl
    let (_, vm) ← (Mm.shmPageGet p key y.vm).mapError Sum.inr
    .ok { y with vm := vm }
  | .shmDt cpu addr, y => do
    let p ← (current cpu y.sched).mapError Sum.inl
    let vm ← (Mm.shmPageDt p addr y.vm).mapError Sum.inr
    .ok { y with vm := vm }
  | .page e, y =>
    if isExec e then .error (.inr .undefined)
    else do
      let m ← (Mm.handle e y.vm.state).mapError Sum.inr
      .ok { y with vm := { y.vm with state := m } }

/-- What the kernel starts with, once `init_pcb` has made the shell. -/
structure Started (y : System) : Prop where
  sched : y.sched = initState
  state : ∃ s stack args image, Mm.Booted s ∧ Mm.doExec 0 stack args image s = .ok y.vm.state

/-! ## `satp` -/

/-- The value `set_satp` writes; `asid` is an `unsigned`. -/
def setSatp (mode asid ppn : Nat) : Nat := (mode <<< 60 ||| asid <<< 44 ||| ppn) % 2 ^ 64

def satpModeSv39 : Nat := 8

/-- The root table of what a core runs; the idle PCBs have the kernel's. -/
def pgdirOf (y : System) : Who → Nat
  | .idle => Mm.pa2kva Mm.pgdirPa
  | .task i => (y.vm.state.procs i).pgdir

/-- The pid of what a core runs; the idle PCBs have 0. -/
def pidOf (y : System) : Who → Int
  | .idle => 0
  | .task i => (y.sched.pcb i).pid

/-- What `do_scheduler` writes on the core between `y` and `z`, if it does. -/
def satpWritten (cpu : Nat) (y z : System) : Option Nat :=
  if pgdirOf z (y.sched.coreRunning cpu) ≠ pgdirOf z (z.sched.coreRunning cpu) then
    some (setSatp satpModeSv39 (pidOf z (z.sched.coreRunning cpu) % 2 ^ 32).toNat
      (Mm.kva2pa (pgdirOf z (z.sched.coreRunning cpu)) / 4096))
  else none

/-- The value decodes to Sv39, the frame of the root table and an address space that
depends on the pid, of which nothing gets into the mode. -/
structure Encodes (v : Nat) (pid : Int) (pgdir : Nat) : Prop where
  mode : v / 2 ^ 60 = satpModeSv39
  ppn : v % 2 ^ 44 = Mm.kva2pa pgdir / 4096
  asid : v / 2 ^ 44 % 2 ^ 16 = (pid % 2 ^ 16).toNat
  apart : (pid % 2 ^ 32).toNat <<< 44 % 2 ^ 64 < 2 ^ 60

/-- The bits of the pid that would be next to the field are zero. -/
def PidFits (pid : Int) : Prop := pid % 2 ^ 20 < 2 ^ 16

/-- The three operands, put one after the other. -/
theorem setSatp_eq {asid ppn : Nat} (hppn : ppn < 2 ^ 44) :
    setSatp satpModeSv39 asid ppn =
      ((8 ||| asid / 2 ^ 16) * 2 ^ 60 + asid % 2 ^ 16 * 2 ^ 44 + ppn) % 2 ^ 64 := by
  have hlow : asid % 2 ^ 16 < 2 ^ 16 := Nat.mod_lt _ (by decide)
  have hasid : asid = (asid / 2 ^ 16) <<< 16 ||| asid % 2 ^ 16 := by
    rw [← Nat.shiftLeft_add_eq_or_of_lt hlow, Nat.shiftLeft_eq, Nat.div_add_mod']
  have hhigh : (8 <<< 16 ||| asid) = (8 ||| asid / 2 ^ 16) * 2 ^ 16 + asid % 2 ^ 16 := by
    conv_lhs => rw [hasid]
    rw [← Nat.or_assoc, ← Nat.shiftLeft_or_distrib, ← Nat.shiftLeft_add_eq_or_of_lt hlow,
      Nat.shiftLeft_eq]
  have hmode : satpModeSv39 <<< 60 = (8 <<< 16) <<< 44 := by decide
  rw [setSatp, hmode, ← Nat.shiftLeft_or_distrib, ← Nat.shiftLeft_add_eq_or_of_lt hppn, hhigh,
    Nat.shiftLeft_eq, Nat.add_mul, Nat.mul_assoc, ← pow_add]

/-- The value is right exactly for the pids that fit. -/
theorem encodes_iff {pid : Int} {pgdir : Nat} (hpid : 0 ≤ pid) (hlt : pid < 2 ^ 31)
    (hppn : Mm.kva2pa pgdir / 4096 < 2 ^ 44) :
    Encodes (setSatp satpModeSv39 (pid % 2 ^ 32).toNat (Mm.kva2pa pgdir / 4096)) pid pgdir ↔
      PidFits pid := by
  obtain ⟨n, rfl⟩ := Int.eq_ofNat_of_zero_le hpid
  have hn : n < 2 ^ 31 := by omega
  have hasid : ((n : Int) % 2 ^ 32).toNat = n := by omega
  obtain ⟨ppn, hp⟩ : ∃ ppn, ppn = Mm.kva2pa pgdir / 4096 := ⟨_, rfl⟩
  rw [hasid, ← hp]
  rw [← hp] at hppn
  obtain ⟨v, hveq⟩ : ∃ v, v = setSatp satpModeSv39 n ppn := ⟨_, rfl⟩
  have hv := hveq.trans (setSatp_eq hppn)
  rw [← hveq]
  obtain ⟨high, hhigh⟩ : ∃ high, high = 8 ||| n / 2 ^ 16 := ⟨_, rfl⟩
  rw [← hhigh] at hv
  constructor
  · intro h
    have hapart := h.apart
    rw [hasid, Nat.shiftLeft_eq] at hapart
    unfold PidFits
    omega
  · intro h
    unfold PidFits at h
    -- What remains of the pid above its field is a multiple of 16.
    have hmod : high % 2 ^ 4 = 8 := by
      rw [hhigh, Nat.or_mod_two_pow]
      have hzero : n / 2 ^ 16 % 2 ^ 4 = 0 := by omega
      rw [hzero]
      decide
    refine ⟨?_, ?_, ?_, ?_⟩
    · unfold satpModeSv39
      omega
    · rw [← hp]
      omega
    · omega
    · rw [hasid, Nat.shiftLeft_eq]
      omega

/-! ## What every run keeps -/

/-- The number of slots that have been used. -/
def used (s : State) : Nat :=
  ((Finset.range numMaxTask).filter fun i => (s.pcb i).status ≠ .available).card

section Used

variable {s s' : State}

/-- There are no more slots than the table has. -/
theorem used_le (s : State) : used s ≤ numMaxTask :=
  (Finset.card_filter_le _ _).trans (Finset.card_range numMaxTask).le

/-- A slot that was used stays used. -/
theorem used_mono (h : ∀ i, (s.pcb i).status ≠ .available → (s'.pcb i).status ≠ .available) :
    used s ≤ used s' :=
  Finset.card_le_card (Finset.monotone_filter_right _ fun i _ => h i)

/-- A slot is used for the first time. -/
theorem used_lt {i : Nat} (hi : i < numMaxTask) (hav : (s.pcb i).status = .available)
    (hset : (s'.pcb i).status ≠ .available)
    (h : ∀ j, (s.pcb j).status ≠ .available → (s'.pcb j).status ≠ .available) :
    used s < used s' := by
  refine Finset.card_lt_card (Finset.ssubset_iff_of_subset (Finset.monotone_filter_right _ fun i _ => h i) |>.2
    ⟨i, Finset.mem_filter.2 ⟨Finset.mem_range.2 hi, hset⟩, fun hmem => ?_⟩)
  exact (Finset.mem_filter.1 hmem).2 hav

end Used

/-- The PCBs within reach have pids that were given out. -/
structure Named (s : State) : Prop where
  pid : ∀ i, Reached s i → 0 ≤ (s.pcb i).pid ∧ (s.pcb i).pid < s.processId
  counter : 0 < s.processId ∧ s.processId < 2 ^ 31

/-- Moving tasks about names none. -/
theorem Moves.named {s s' : State} (hm : Moves s s') (h : Named s) : Named s' := by
  refine ⟨fun i hi => ?_, ?_⟩
  · have hold := h.pid i (hm.held i hi)
    rw [hm.processId]
    rcases hm.pid i with hp | hp
    · rw [hp]
      exact hold
    · rw [hp]
      exact ⟨le_rfl, h.counter.1⟩
  · rw [hm.processId]
    exact h.counter

/-- A new PCB with a pid that was given out. -/
theorem Sets.named {s t s' : State} {i : Nat} {pid : Int} (hs : Sets i pid t s') (h : Named s)
    (hlinks : t.links = s.links) (hcore : t.coreRunning = s.coreRunning) (hpcb : t.pcb = s.pcb)
    (hcount : s.processId ≤ t.processId ∧ t.processId < 2 ^ 31)
    (hpid : 0 ≤ pid ∧ pid < t.processId) : Named s' := by
  refine ⟨fun j hj => ?_, ?_⟩
  · rw [hs.processId]
    by_cases hji : j = i
    · rw [hji, hs.pid]
      exact hpid
    · rcases hs.held j hj with hj | hj
      · unfold Reached at hj
        rw [hlinks, hcore] at hj
        rw [hs.other j hji, hpcb]
        have := h.pid j hj
        omega
      · exact absurd hj hji
  · rw [hs.processId]
    have := h.counter
    omega

/-- Setting up a task frees no slot. -/
theorem Sets.usedSlots {s t s' : State} {i : Nat} {pid : Int} (hs : Sets i pid t s')
    (hpcb : t.pcb = s.pcb) (j : Nat) (hj : (s.pcb j).status ≠ .available) :
    (s'.pcb j).status ≠ .available := by
  by_cases hji : j = i
  · rw [hji]
    exact hs.used
  · rw [hs.other j hji, hpcb]
    exact hj

/-- What a call leaves of the processes. -/
structure Keeps (s s' : State) : Prop where
  named : Named s'
  used : ∀ i, (s.pcb i).status ≠ .available → (s'.pcb i).status ≠ .available

/-- `do_exec` keeps the names. -/
theorem doExec_keeps {s : State} (h : Named s) (cpu : Nat) :
    Holds AnyStop (fun r => Keeps s r.2) (doExec cpu s) := by
  unfold doExec
  refine Holds.bind (P := fun _ => True) ?_ fun c _ => ?_
  · unfold current
    split <;> trivial
  · split
    · trivial
    · rename_i i _
      have hcount := h.counter
      split_ifs with hlast
      · trivial
      · refine Holds.bind (newTask_sets i s.processId (s.pcb c).mask
          { s with processId := s.processId + 1 }) fun s' hs => ?_
        refine ⟨hs.named h rfl rfl rfl ?_ ?_, hs.usedSlots rfl⟩
        · change s.processId ≤ s.processId + 1 ∧ s.processId + 1 < 2 ^ 31
          omega
        · change 0 ≤ s.processId ∧ s.processId < s.processId + 1
          omega

/-- `do_thread_create` keeps the names. -/
theorem doThreadCreate_keeps {s : State} (h : Named s) (cpu : Nat) :
    Holds AnyStop (Keeps s) (doThreadCreate cpu s) := by
  unfold doThreadCreate
  refine Holds.bind ((Moves.refl s).current cpu) fun c hc => ?_
  split
  · trivial
  · rename_i i _
    exact (newTask_sets i (s.pcb c).pid (s.pcb c).mask s).mono fun s' hs =>
      ⟨hs.named h rfl rfl rfl ⟨le_rfl, h.counter.2⟩ (h.pid c hc), hs.usedSlots rfl⟩

/-- So does every kernel entry. -/
theorem step_keeps {s : State} (h : Named s) (cpu : Nat) (c : Call) :
    Holds AnyStop (Keeps s) (Sched.step cpu c s) := by
  unfold Sched.step
  split_ifs
  · trivial
  · by_cases hc : c.creates = false
    · exact (handle_moves (Moves.refl s) cpu hc).mono fun s' hm => ⟨hm.named h, hm.used⟩
    · cases c with
      | exec => exact Holds.bind (doExec_keeps h cpu) fun r hr => hr
      | threadCreate => exact doThreadCreate_keeps h cpu
      | _ => exact absurd rfl hc

/-- So does `do_taskset_exec`, which takes a slot where there is one. -/
theorem doTasksetExec_keeps {s : State} (h : Named s) (mask : Nat) :
    Holds AnyStop (fun s' => Keeps s s' ∧ (unusedSlot s = true → used s < used s'))
      (doTasksetExec mask s) := by
  have hcount := h.counter
  unfold doTasksetExec unusedSlot
  cases hslot : freeSlot s with
  | none => trivial
  | some i =>
      simp only
      split_ifs with hlast
      · trivial
      · refine (newTask_sets i s.processId mask { s with processId := s.processId + 1 }).mono
          fun s' hs => ⟨⟨hs.named h rfl rfl rfl ?_ ?_, hs.usedSlots rfl⟩, fun hav => ?_⟩
        · change s.processId ≤ s.processId + 1 ∧ s.processId + 1 < 2 ^ 31
          omega
        · change 0 ≤ s.processId ∧ s.processId < s.processId + 1
          omega
        · exact used_lt (freeSlot_some hslot).1 (of_decide_eq_true hav) hs.used (hs.usedSlots rfl)

/-- The invariant of every run: pids have been given out, and memory is on the books. -/
structure Sound (y : System) : Prop where
  named : Named y.sched
  ledger : Mm.Ledger (2 * used y.sched) y.vm.state

/-- The pages of a call are booked. -/
theorem callPages_ledger {n : Nat} {y : System} (h : Mm.Ledger n y.vm.state) (cpu : Nat) (c : Call)
    (load : Load) :
    Holds Mm.AnyStop (fun r => Mm.Ledger n r.1.state) (callPages cpu c load y) := by
  unfold callPages
  split
  · exact Holds.bind (Mm.doExec_ledger h _ _ _ _) fun s hs => hs
  · exact Holds.bind (Mm.doThreadCreate_ledger h _ _ _ _) fun s hs => hs
  · exact h

/-- Every error is admitted. -/
def AnyError (_ : Stop ⊕ Mm.Stop) : Prop := True

/-- The step lemma of the invariant. -/
theorem System.step_sound {y : System} (h : Sound y) (e : Entry) :
    Holds AnyError Sound (System.step e y) := by
  have hcurrent (cpu : Nat) : Holds AnyError (fun _ => True)
      ((current cpu y.sched).mapError (Sum.inl : Stop → Stop ⊕ Mm.Stop)) :=
    (((Moves.refl y.sched).current cpu).mono fun _ _ => trivial).mapError fun _ _ => trivial
  cases e with
  | call cpu c load =>
      refine Holds.bind ((step_keeps h.named cpu c).mapError fun _ _ => trivial) fun s hs => ?_
      have hled : Mm.Ledger (2 * used s) y.vm.state :=
        h.ledger.mono (Nat.mul_le_mul_left 2 (used_mono hs.used))
      exact Holds.bind ((callPages_ledger hled cpu c load).mapError fun _ _ => trivial)
        fun r hr => ⟨hs.named, hr⟩
  | tasksetExec cpu mask load =>
      refine Holds.bind (hcurrent cpu) fun _ _ => ?_
      refine Holds.bind ((doTasksetExec_keeps h.named mask).mapError fun _ _ => trivial)
        fun s hs => ?_
      refine Holds.bind ((Mm.doTasksetExec_ledger h.ledger (unusedSlot y.sched)
        load.image).mapError fun _ _ => trivial) fun m hm => ⟨hs.1.named, hm.mono ?_⟩
      have hmono := used_mono hs.1.used
      change _ ≤ 2 * used s
      split_ifs with hav
      · have := hs.2 hav
        omega
      · omega
  | tasksetChg cpu pid mask =>
      refine Holds.bind (hcurrent cpu) fun _ _ => ?_
      refine Holds.bind (P := Moves y.sched) (Holds.mapError (E := AnyStop) ?_ fun _ _ => trivial)
        fun s hs => ⟨hs.named h.named, h.ledger.mono (Nat.mul_le_mul_left 2 (used_mono hs.used))⟩
      unfold doTasksetChg
      split
      · trivial
      · exact (Moves.refl y.sched).setPcb (Or.inl rfl) fun hav => hav
  | shmGet cpu key =>
      refine Holds.bind (hcurrent cpu) fun p _ => ?_
      exact Holds.bind ((Mm.shmPageGet_ledger h.ledger p key).mapError fun _ _ => trivial)
        fun r hr => ⟨h.named, hr⟩
  | shmDt cpu addr =>
      refine Holds.bind (hcurrent cpu) fun p _ => ?_
      exact Holds.bind ((Mm.shmPageDt_ledger h.ledger p addr).mapError fun _ _ => trivial)
        fun vm hvm => ⟨h.named, hvm⟩
  | page e =>
      simp only [System.step]
      split_ifs
      · trivial
      · exact Holds.bind ((Mm.handle_ledger h.ledger e).mapError fun _ _ => trivial)
          fun m hm => ⟨h.named, hm⟩

/-- At first only the shell is linked. -/
theorem initState_next {n : Node} {i : Nat} (hn : initState.links.next n = some (.task i)) :
    i = 0 := by
  cases n with
  | ready =>
      cases hn
      rfl
  | sleep => cases hn
  | lock k =>
      change (if k < lockNum then some (Node.lock k) else none) = _ at hn
      split_ifs at hn
      cases hn
  | barrier k =>
      change (if k < barrierNum then some (Node.barrier k) else none) = _ at hn
      split_ifs at hn
      cases hn
  | cond k =>
      change (if k < conditionNum then some (Node.cond k) else none) = _ at hn
      split_ifs at hn
      cases hn
  | wait k =>
      change (if k = 0 then some (Node.wait 0) else none) = _ at hn
      split_ifs at hn
      cases hn
  | task k =>
      change (if k = 0 then some Node.ready else none) = _ at hn
      split_ifs at hn
      cases hn

/-- The shell has its name. -/
theorem initState_named : Named initState := by
  refine ⟨fun i hi => ?_, by decide, by decide⟩
  have hzero : i = 0 := by
    rcases hi with ⟨n, hn | hn⟩ | ⟨c, hc⟩
    · exact initState_next hn
    · exact initState_next (n := n) hn
    · cases hc
  subst hzero
  exact ⟨by decide, by decide⟩

/-- The first state is sound. -/
theorem Started.sound {y : System} (h : Started y) : Sound y := by
  obtain ⟨s, stack, args, image, hboot, hexec⟩ := h.state
  have hled := (Mm.doExec_ledger hboot.ledger 0 stack args image).of_ok hexec
  refine ⟨?_, hled.mono (Nat.zero_le _)⟩
  rw [h.sched]
  exact initState_named

/-- What a core runs after a step has a pid that was given out. -/
theorem Named.running {y : System} (h : Named y.sched) (cpu : Nat) :
    0 ≤ pidOf y (y.sched.coreRunning cpu) ∧ pidOf y (y.sched.coreRunning cpu) < 2 ^ 31 := by
  have hcount := h.counter
  cases hw : y.sched.coreRunning cpu with
  | idle =>
      change (0 : Int) ≤ 0 ∧ (0 : Int) < 2 ^ 31
      decide
  | task i =>
      obtain ⟨hlo, hhi⟩ := h.pid i (Or.inr ⟨cpu, hw⟩)
      change 0 ≤ (y.sched.pcb i).pid ∧ (y.sched.pcb i).pid < 2 ^ 31
      omega

/-- The frame of a root table has 44 bits. -/
theorem Sound.frame {y : System} (h : Sound y) (w : Who) :
    Mm.kva2pa (pgdirOf y w) / 4096 < 2 ^ 44 := by
  cases w with
  | idle =>
      change Mm.kva2pa (Mm.pa2kva Mm.pgdirPa) / 4096 < 2 ^ 44
      decide
  | task i =>
      have hused := used_le y.sched
      unfold numMaxTask at hused
      exact h.ledger.frame (by omega) i

/-! ## Runs -/

/-- What the entry makes `do_scheduler` write encodes Sv39. -/
def SwitchRight (y : System) (e : Entry) : Prop :=
  ∀ z cpu v, System.step e y = .ok z → e.cpu = some cpu → satpWritten cpu y z = some v →
    Encodes v (pidOf z (z.sched.coreRunning cpu)) (pgdirOf z (z.sched.coreRunning cpu))

/-- What the entry makes `do_scheduler` switch to has a pid that fits. -/
def SwitchFits (y : System) (e : Entry) : Prop :=
  ∀ z cpu, System.step e y = .ok z → e.cpu = some cpu → satpWritten cpu y z ≠ none →
    PidFits (pidOf z (z.sched.coreRunning cpu))

/-- One entry. -/
theorem Sound.switch_iff {y : System} (h : Sound y) (e : Entry) :
    SwitchRight y e ↔ SwitchFits y e := by
  have hiff {z : System} {cpu : Nat} (hstep : System.step e y = .ok z) :=
    have hz : Sound z := (System.step_sound h e).of_ok hstep
    encodes_iff (hz.named.running cpu).1 (hz.named.running cpu).2
      (hz.frame (z.sched.coreRunning cpu))
  constructor
  · intro hright z cpu hstep hcpu hsome
    obtain ⟨v, hv⟩ := Option.ne_none_iff_exists'.1 hsome
    have henc := hright z cpu v hstep hcpu hv
    unfold satpWritten at hv
    split_ifs at hv
    cases hv
    exact (hiff hstep).1 henc
  · intro hfits z cpu v hstep hcpu hv
    have hpid := hfits z cpu hstep hcpu (by rw [hv]; exact nofun)
    unfold satpWritten at hv
    split_ifs at hv
    cases hv
    exact (hiff hstep).2 hpid

/-- A run of the kernel writes right values exactly as long as it switches to pids of
which the bits 16 to 19 are zero. -/
theorem satp_right_iff {y : System} (hstart : Started y) (es : List Entry) :
    AllSteps System.step SwitchRight es y ↔ AllSteps System.step SwitchFits es y :=
  allSteps_iff (fun _ e h => ⟨h.switch_iff e, fun _ hz => (System.step_sound h e).of_ok hz⟩) es y
    hstart.sound

end Sched
