import OslabRiscv.Lib.Assembly

/-!
# The way into the kernel and back

`SAVE_CONTEXT`, `RESTORE_CONTEXT` and `switch_to` of `entry.S`, instruction by instruction.  All
three find the kernel stack of a process in its PCB, which `tp` points to: above `kernel_sp` lie
the registers kept by `switch_to`, and above those the frame with the registers of the program.

The program's `sp` is kept in the PCB, beside the copy in the frame, and comes back from there.
-/

namespace Kernel

open Assembly ByteStore Cpu

/-! ## `regs.h` -/

def pcbKernelSp : Nat := 0

def pcbUserSp : Nat := 8

def offsetRegSp : Nat := 16

def offsetRegTp : Nat := 32

def offsetRegA0 : Nat := 80

def offsetRegSstatus : Nat := 256

def offsetRegSepc : Nat := 264

def offsetRegSbadaddr : Nat := 272

def offsetRegScause : Nat := 280

def offsetSize : Nat := 288

def switchToSize : Nat := 112

/-- `SR_SUM | SR_FS`. -/
def srSumFs : Int := 0x46000

/-- The registers `RESTORE_CONTEXT` loads from the frame, with their offsets. -/
def frameRegs : Table :=
  [(.ra, 8), (.gp, 24), (.tp, 32), (.t0, 40), (.t1, 48), (.t2, 56), (.s0, 64), (.s1, 72),
    (.a0, 80), (.a1, 88), (.a2, 96), (.a3, 104), (.a4, 112), (.a5, 120), (.a6, 128), (.a7, 136),
    (.s2, 144), (.s3, 152), (.s4, 160), (.s5, 168), (.s6, 176), (.s7, 184), (.s8, 192), (.s9, 200),
    (.s10, 208), (.s11, 216), (.t3, 224), (.t4, 232), (.t5, 240), (.t6, 248)]

/-- The registers a C function leaves as it found them, and its return address. -/
def calleeRegs : Table :=
  [(.sp, 8), (.ra, 0), (.s0, 16), (.s1, 24), (.s2, 32), (.s3, 40), (.s4, 48), (.s5, 56), (.s6, 64),
    (.s7, 72), (.s8, 80), (.s9, 88), (.s10, 96), (.s11, 104)]

/-! ## `entry.S` -/

/-- `SAVE_CONTEXT`. -/
def saveContext : List Instr :=
  [.sd .sp pcbUserSp .tp, .ld .sp pcbKernelSp .tp, .addi .sp .sp switchToSize] ++
  saves .sp ((.zero, 0) :: frameRegs) ++
  [.ld .t1 pcbUserSp .tp, .sd .t1 offsetRegSp .sp,
    .csrr .t0 .sstatus, .csrr .t1 .sepc, .csrr .t2 .stval, .csrr .t3 .scause] ++
  saves .sp [(.t0, offsetRegSstatus), (.t1, offsetRegSepc), (.t2, offsetRegSbadaddr),
    (.t3, offsetRegScause)] ++
  [.li .t0 srSumFs, .csrw .sstatus .t0, .addi .sp .sp (-switchToSize)]

/-- `RESTORE_CONTEXT`. -/
def restoreContext : List Instr :=
  [.ld .sp pcbKernelSp .tp, .addi .sp .sp switchToSize,
    .ld .t0 offsetRegSepc .sp, .csrw .sepc .t0, .ld .t1 offsetRegSstatus .sp, .csrw .sstatus .t1] ++
  loads .sp frameRegs ++
  [.ld .sp pcbUserSp .tp]

/-- `switch_to`, up to its last instruction `jr ra`. -/
def switchTo : List Instr :=
  [.ld .t0 pcbKernelSp .a0] ++ saves .t0 calleeRegs ++
  [.add .tp .a1 .zero, .ld .t0 pcbKernelSp .tp] ++ loads .t0 calleeRegs

/-! ## Where a process keeps its registers -/

/-- A PCB and the top of the kernel stack behind it: aligned, and apart from each other. -/
structure Fits (pcb sp : Nat) : Prop where
  pcb_aligned : pcb % 8 = 0
  sp_aligned : sp % 8 = 0
  pcb_lt : pcb + 16 ≤ 2 ^ 64
  sp_lt : sp + (switchToSize + offsetSize) ≤ 2 ^ 64
  apart : pcb + 16 ≤ sp ∨ sp + (switchToSize + offsetSize) ≤ pcb

/-- The bytes in which the registers of a process are kept. -/
def InArea (pcb sp a : Nat) : Prop :=
  (pcb ≤ a ∧ a < pcb + 16) ∨ (sp ≤ a ∧ a < sp + (switchToSize + offsetSize))

/-- What a program sees of the hart: its registers, and in `sstatus` the mode it runs in and
whether interrupts are on, as a trap finds them. -/
structure Context where
  reg : Reg → Word
  pc : Word
  status : Word

/-- The context is kept behind a PCB. -/
structure Kept (m : Store) (pcb sp : Nat) (c : Context) : Prop where
  kernelSp : (dword m pcb).toNat = sp
  userSp : dword m (pcb + pcbUserSp) = c.reg .sp
  regs : ∀ p ∈ frameRegs, dword m (sp + switchToSize + p.2) = c.reg p.1
  sepc : dword m (sp + switchToSize + offsetRegSepc) = c.pc
  sstatus : dword m (sp + switchToSize + offsetRegSstatus) = c.status

/-- The registers of a process that has called `switch_to` are kept on its kernel stack. -/
structure Parked (m : Store) (pcb sp : Nat) (reg : Reg → Word) : Prop where
  kernelSp : (dword m pcb).toNat = sp
  regs : ∀ p ∈ calleeRegs, dword m (sp + p.2) = reg p.1

section Area

variable {m m' : Store} {pcb sp : Nat}

/-- The slots of the frame lie apart. -/
theorem slots_frameRegs : Slots offsetSize ((.zero, 0) :: frameRegs) := by decide

/-- So do those of `switch_to`. -/
theorem slots_calleeRegs : Slots switchToSize calleeRegs := by decide

/-- The words of the PCB depend on its area. -/
theorem dword_pcb {o : Nat} (h : ∀ a, InArea pcb sp a → m' a = m a) (ho : o + 8 ≤ 16) :
    dword m' (pcb + o) = dword m (pcb + o) :=
  dword_congr fun a _ _ => h a (.inl ⟨by omega, by omega⟩)

/-- The words of the kernel stack depend on its area. -/
theorem dword_stack {o : Nat} (h : ∀ a, InArea pcb sp a → m' a = m a)
    (ho : o + 8 ≤ switchToSize + offsetSize) : dword m' (sp + o) = dword m (sp + o) :=
  dword_congr fun a _ _ => h a (.inr ⟨by omega, by omega⟩)

/-- Only the bytes of the area matter. -/
theorem Kept.congr {c : Context} (hk : Kept m pcb sp c) (h : ∀ a, InArea pcb sp a → m' a = m a) :
    Kept m' pcb sp c where
  kernelSp := by
    have hsp := dword_pcb (o := 0) h (by omega)
    rw [Nat.add_zero] at hsp
    rw [hsp]
    exact hk.kernelSp
  userSp := (dword_pcb h (by unfold pcbUserSp; omega)).trans hk.userSp
  regs p hp := by
    have hin := (slots_frameRegs.inside p (List.mem_cons_of_mem _ hp)).2
    rw [Nat.add_assoc, dword_stack h (by unfold switchToSize offsetSize at *; omega), ← Nat.add_assoc]
    exact hk.regs p hp
  sepc := by
    rw [Nat.add_assoc, dword_stack h (by decide), ← Nat.add_assoc]
    exact hk.sepc
  sstatus := by
    rw [Nat.add_assoc, dword_stack h (by decide), ← Nat.add_assoc]
    exact hk.sstatus

theorem Parked.congr {reg : Reg → Word} (hk : Parked m pcb sp reg)
    (h : ∀ a, InArea pcb sp a → m' a = m a) : Parked m' pcb sp reg where
  kernelSp := by
    have hsp := dword_pcb (o := 0) h (by omega)
    rw [Nat.add_zero] at hsp
    rw [hsp]
    exact hk.kernelSp
  regs p hp := by
    have hin := (slots_calleeRegs.inside p hp).2
    rw [dword_stack h (by unfold switchToSize offsetSize at *; omega)]
    exact hk.regs p hp

end Area

/-! ## Saving -/

section Frame

variable {s : Cpu} {pcb sp : Nat}

/-- From `tp` to the frame of the process. -/
theorem run_toFrame (hf : Fits pcb sp) (htp : (s.get .tp).toNat = pcb)
    (hsp : (dword s.mem pcb).toNat = sp) (is : List Instr) :
    run (.ld .sp pcbKernelSp .tp :: .addi .sp .sp switchToSize :: is) s =
      run is (s.set .sp (BitVec.ofNat 64 (sp + switchToSize))) := by
  have hld := exec_ld (s := s) (r := .sp) (b := .tp) (o := pcbKernelSp)
    (by have := hf.pcb_lt; unfold pcbKernelSp; omega)
    (by have := hf.pcb_aligned; unfold pcbKernelSp; omega)
  have hzero : (s.get .tp).toNat + pcbKernelSp = pcb := by rw [htp]; rfl
  have hword : dword s.mem pcb + BitVec.ofInt 64 switchToSize = BitVec.ofNat 64 (sp + switchToSize) := by
    rw [BitVec.ofInt_natCast, ← hsp, BitVec.ofNat_add, BitVec.ofNat_toNat, BitVec.setWidth_eq]
  have haddi : exec (.addi .sp .sp switchToSize) (s.set .sp (dword s.mem pcb)) =
      some (s.set .sp (BitVec.ofNat 64 (sp + switchToSize))) := by
    simp only [exec, get_set s _ (by decide : Reg.sp ≠ .zero), hword, set_set]
  rw [hzero] at hld
  rw [run_cons_some hld, run_cons_some haddi]

/-- The frame is below the end of the address space. -/
theorem frame_toNat (hf : Fits pcb sp) :
    (BitVec.ofNat 64 (sp + switchToSize)).toNat = sp + switchToSize := by
  have hlt := hf.sp_lt
  rw [BitVec.toNat_ofNat]
  unfold switchToSize offsetSize at *
  omega

/-- The stack pointer is not in the frame. -/
theorem ne_sp_of_mem {p : Reg × Nat} (hp : p ∈ frameRegs) : p.1 ≠ .sp := by
  intro heq
  exact (by decide : Reg.sp ∉ frameRegs.map Prod.fst) (heq ▸ List.mem_map_of_mem hp)

/-- The part of `SAVE_CONTEXT` that stores the general registers. -/
theorem run_saveRegs (hf : Fits pcb sp) (htp : (s.get .tp).toNat = pcb)
    (hsp : (dword s.mem pcb).toNat = sp) (is : List Instr) :
    ∃ m, run (.sd .sp pcbUserSp .tp :: .ld .sp pcbKernelSp .tp :: .addi .sp .sp switchToSize ::
        (saves .sp ((.zero, 0) :: frameRegs) ++ is)) s =
        run is ((s.set .sp (BitVec.ofNat 64 (sp + switchToSize))).setMem m) ∧
      (dword m pcb).toNat = sp ∧ dword m (pcb + pcbUserSp) = s.get .sp ∧
      (∀ p ∈ frameRegs, dword m (sp + switchToSize + p.2) = s.get p.1) ∧
      ∀ a, ¬InArea pcb sp a → m a = s.mem a := by
  have hpal := hf.pcb_aligned
  have hsal := hf.sp_aligned
  have hplt := hf.pcb_lt
  have hslt := hf.sp_lt
  have hapart := hf.apart
  -- the program's `sp` goes to the PCB
  have hsd := exec_sd (s := s) (r := .sp) (b := .tp) (o := pcbUserSp)
    (by unfold pcbUserSp; omega) (by unfold pcbUserSp; omega)
  rw [htp] at hsd
  set m₁ := store 8 s.mem (pcb + pcbUserSp) (s.get .sp).toNat with hm₁
  have hkeep : dword m₁ pcb = dword s.mem pcb :=
    dword_store_of_ne s.mem _ (.inl (by unfold pcbUserSp; omega))
  have hto := run_toFrame (s := s.setMem m₁) hf htp (by rw [mem_setMem, hkeep]; exact hsp)
    (saves .sp ((.zero, 0) :: frameRegs) ++ is)
  set s₃ := (s.setMem m₁).set .sp (BitVec.ofNat 64 (sp + switchToSize)) with hs₃
  have hbase : (s₃.get .sp).toNat = sp + switchToSize := by
    rw [hs₃, get_set _ _ (by decide), frame_toNat hf]
  obtain ⟨m, hrun, hslot, hother⟩ := run_saves slots_frameRegs (s := s₃) (b := .sp)
    (by rw [hbase]; unfold switchToSize; omega)
    (by rw [hbase]; unfold switchToSize offsetSize at *; omega)
  rw [hbase] at hslot hother
  have hframe : ∀ a, (a < sp + switchToSize ∨ sp + switchToSize + offsetSize ≤ a) → m a = m₁ a := by
    intro a ha
    refine hother a fun p hp => ?_
    have hin := slots_frameRegs.inside p hp
    omega
  refine ⟨m, ?_, ?_, ?_, ?_, ?_⟩
  · rw [run_cons_some hsd, hto, run_append_some hrun]
    rfl
  · rw [dword_congr (w := m₁) fun a _ _ => hframe a (by unfold switchToSize offsetSize at *; omega),
      hkeep]
    exact hsp
  · rw [dword_congr (w := m₁) fun a _ _ =>
      hframe a (by unfold pcbUserSp switchToSize offsetSize at *; omega), hm₁]
    exact dword_store ..
  · intro p hp
    rw [hslot p (List.mem_cons_of_mem _ hp)]
    exact get_set_of_ne (s.setMem m₁) _ (ne_sp_of_mem hp)
  · intro a ha
    unfold InArea switchToSize offsetSize at ha
    rw [hframe a (by unfold switchToSize offsetSize; omega)]
    exact store_apply_of_ne s.mem _ (by unfold pcbUserSp; omega)

/-- The registers with the trap's own, on the way to their slots. -/
def withCsrs (s : Cpu) : Cpu :=
  (((s.set .t0 (s.csr .sstatus)).set .t1 (s.csr .sepc)).set .t2 (s.csr .stval)).set .t3 (s.csr .scause)

def csrRegs : Table :=
  [(.t0, offsetRegSstatus), (.t1, offsetRegSepc), (.t2, offsetRegSbadaddr), (.t3, offsetRegScause)]

/-- The slots of the trap's own registers lie apart. -/
theorem slots_csrRegs : Slots offsetSize csrRegs := by decide

/-- The part of `SAVE_CONTEXT` behind the general registers. -/
def saveCsrs : List Instr :=
  .ld .t1 pcbUserSp .tp :: .sd .t1 offsetRegSp .sp :: .csrr .t0 .sstatus ::
    .csrr .t1 .sepc :: .csrr .t2 .stval :: .csrr .t3 .scause :: (saves .sp csrRegs ++
      [.li .t0 srSumFs, .csrw .sstatus .t0, .addi .sp .sp (-switchToSize)])

/-- `SAVE_CONTEXT` in its three parts. -/
theorem saveContext_eq : saveContext = .sd .sp pcbUserSp .tp :: .ld .sp pcbKernelSp .tp ::
    .addi .sp .sp switchToSize :: (saves .sp ((.zero, 0) :: frameRegs) ++ saveCsrs) := rfl

/-- What its last part stores. -/
theorem run_saveCsrs (hf : Fits pcb sp) (htp : (s.get .tp).toNat = pcb)
    (hsp : s.get .sp = BitVec.ofNat 64 (sp + switchToSize)) :
    ∃ s', run saveCsrs s = some s' ∧ s'.get .tp = s.get .tp ∧
      dword s'.mem (sp + switchToSize + offsetRegSstatus) = s.csr .sstatus ∧
      dword s'.mem (sp + switchToSize + offsetRegSepc) = s.csr .sepc ∧
      ∀ a, a < sp + switchToSize + offsetRegSp ∨ (sp + switchToSize + offsetRegSp + 8 ≤ a ∧
        a < sp + switchToSize + offsetRegSstatus) ∨ sp + switchToSize + offsetSize ≤ a →
        s'.mem a = s.mem a := by
  have hpal := hf.pcb_aligned
  have hsal := hf.sp_aligned
  have hplt := hf.pcb_lt
  have hslt := hf.sp_lt
  have hbase : (s.get .sp).toNat = sp + switchToSize := by rw [hsp, frame_toNat hf]
  have hld := exec_ld (s := s) (r := .t1) (b := .tp) (o := pcbUserSp)
    (by unfold pcbUserSp; omega) (by unfold pcbUserSp; omega)
  set s₁ := s.set .t1 (dword s.mem ((s.get .tp).toNat + pcbUserSp)) with hs₁
  have hbase₁ : (s₁.get .sp).toNat = sp + switchToSize := by
    rw [hs₁, get_set_of_ne _ _ (by decide), hbase]
  have hsd := exec_sd (s := s₁) (r := .t1) (b := .sp) (o := offsetRegSp)
    (by rw [hbase₁]; unfold switchToSize offsetSize offsetRegSp at *; omega)
    (by rw [hbase₁]; unfold switchToSize offsetRegSp; omega)
  rw [hbase₁] at hsd
  set m₁ := store 8 s₁.mem (sp + switchToSize + offsetRegSp) (s₁.get .t1).toNat with hm₁
  set s₂ := withCsrs (s₁.setMem m₁) with hs₂
  have hcsrs : ∀ is, run (.csrr .t0 .sstatus :: .csrr .t1 .sepc :: .csrr .t2 .stval ::
      .csrr .t3 .scause :: is) (s₁.setMem m₁) = run is s₂ := fun _ => rfl
  have hget : ∀ r, r ∉ [Reg.t0, .t1, .t2, .t3] → s₂.get r = s.get r := by
    intro r hr
    simp only [List.mem_cons, List.not_mem_nil, or_false, not_or] at hr
    rw [hs₂, withCsrs, get_set_of_ne _ _ hr.2.2.2, get_set_of_ne _ _ hr.2.2.1,
      get_set_of_ne _ _ hr.2.1, get_set_of_ne _ _ hr.1, get_setMem, hs₁, get_set_of_ne _ _ hr.2.1]
  have hbase₂ : (s₂.get .sp).toNat = sp + switchToSize := by rw [hget _ (by decide), hbase]
  obtain ⟨m, hrun, hslot, hother⟩ := run_saves slots_csrRegs (s := s₂) (b := .sp)
    (by rw [hbase₂]; unfold switchToSize; omega)
    (by rw [hbase₂]; unfold switchToSize offsetSize at *; omega)
  rw [hbase₂] at hslot hother
  set s₃ := s₂.setMem m with hs₃
  set s₄ := (s₃.set .t0 (BitVec.ofInt 64 srSumFs)).setCsr .sstatus
    ((s₃.set .t0 (BitVec.ofInt 64 srSumFs)).get .t0) with hs₄
  have hlast : run [.li .t0 srSumFs, .csrw .sstatus .t0, .addi .sp .sp (-switchToSize)] s₃ =
      some (s₄.set .sp (s₄.get .sp + BitVec.ofInt 64 (-switchToSize))) := rfl
  refine ⟨s₄.set .sp (s₄.get .sp + BitVec.ofInt 64 (-switchToSize)), ?_, ?_, ?_, ?_, ?_⟩
  · rw [saveCsrs, run_cons_some hld, run_cons_some hsd, hcsrs, run_append_some hrun, hlast]
  · rw [get_set_of_ne _ _ (by decide), hs₄, get_setCsr, get_set_of_ne _ _ (by decide), hs₃, get_setMem,
      hget _ (by decide)]
  · have hslot₀ := hslot (.t0, offsetRegSstatus) (by decide)
    rw [hs₂, withCsrs, get_set_of_ne _ _ (by decide), get_set_of_ne _ _ (by decide),
      get_set_of_ne _ _ (by decide), get_set _ _ (by decide)] at hslot₀
    exact hslot₀
  · have hslot₁ := hslot (.t1, offsetRegSepc) (by decide)
    rw [hs₂, withCsrs, get_set_of_ne _ _ (by decide), get_set_of_ne _ _ (by decide),
      get_set _ _ (by decide)] at hslot₁
    exact hslot₁
  · intro a ha
    have hfar : m a = s₂.mem a := by
      refine hother a fun p hp => ?_
      have hlo : offsetRegSstatus ≤ p.2 ∧ p.2 + 8 ≤ offsetSize := by
        revert p
        decide
      unfold offsetRegSp offsetRegSstatus offsetSize at *
      omega
    change m a = s.mem a
    rw [hfar]
    change m₁ a = s.mem a
    rw [hm₁]
    exact store_apply_of_ne s.mem _ (by unfold offsetRegSstatus offsetRegSp offsetSize at *; omega)

/-- What a trap finds. -/
def trapContext (s : Cpu) : Context := ⟨s.get, s.csr .sepc, s.csr .sstatus⟩

/-- **Saving.**  The program's context is kept behind the PCB, and nothing else in memory has
changed. -/
theorem saveContext_spec (hf : Fits pcb sp) (htp : (s.get .tp).toNat = pcb)
    (hsp : (dword s.mem pcb).toNat = sp) :
    ∃ s', run saveContext s = some s' ∧ Kept s'.mem pcb sp (trapContext s) ∧
      s'.get .tp = s.get .tp ∧ ∀ a, ¬InArea pcb sp a → s'.mem a = s.mem a := by
  have hapart := hf.apart
  obtain ⟨m, hrun, hsp', husp, hregs, hother⟩ := run_saveRegs hf htp hsp saveCsrs
  set s₁ := (s.set .sp (BitVec.ofNat 64 (sp + switchToSize))).setMem m with hs₁
  have htp₁ : s₁.get .tp = s.get .tp := by rw [hs₁, get_setMem, get_set_of_ne _ _ (by decide)]
  have hbase₁ : s₁.get .sp = BitVec.ofNat 64 (sp + switchToSize) := by
    rw [hs₁, get_setMem, get_set _ _ (by decide)]
  obtain ⟨s', hrun', htp', hstatus, hepc, hother'⟩ :=
    run_saveCsrs hf (by rw [htp₁]; exact htp) hbase₁
  have hlow : ∀ a, a < sp + switchToSize + offsetRegSp ∨
      (sp + switchToSize + offsetRegSp + 8 ≤ a ∧ a < sp + switchToSize + offsetRegSstatus) ∨
      sp + switchToSize + offsetSize ≤ a → s'.mem a = m a := hother'
  have hpcb : ∀ a, pcb ≤ a → a < pcb + 16 → s'.mem a = m a := by
    intro a hlo hhi
    refine hlow a ?_
    unfold offsetRegSp offsetRegSstatus switchToSize offsetSize at *
    omega
  refine ⟨s', ?_, ⟨?_, ?_, ?_, hepc, hstatus⟩, htp'.trans htp₁, ?_⟩
  · rw [saveContext_eq, hrun, hrun']
  · rw [dword_congr (w := m) fun a hlo hhi => hpcb a hlo (by omega)]
    exact hsp'
  · rw [dword_congr (w := m) fun a hlo hhi =>
      hpcb a (by omega) (by unfold pcbUserSp at hhi; omega)]
    exact husp
  · intro p hp
    have hslot : (p.2 = 8 ∨ offsetRegSp + 8 ≤ p.2) ∧ p.2 + 8 ≤ offsetRegSstatus := by
      revert p
      decide
    rw [dword_congr (w := m) fun a hlo hhi => hlow a (by unfold offsetRegSp at *; omega)]
    exact hregs p hp
  · intro a ha
    have hout : a < sp + switchToSize + offsetRegSp ∨ sp + switchToSize + offsetSize ≤ a := by
      unfold InArea at ha
      unfold switchToSize offsetSize offsetRegSp at *
      omega
    rw [hlow a (by omega)]
    exact hother a ha

/-- **Restoring.**  The registers are those that are kept, and `sret` finds the rest in its two
registers. -/
theorem restoreContext_spec {c : Context} (hf : Fits pcb sp) (htp : (s.get .tp).toNat = pcb)
    (hk : Kept s.mem pcb sp c) (hc : (c.reg .tp).toNat = pcb) :
    ∃ s', run restoreContext s = some s' ∧ (∀ r, r ≠ .zero → s'.get r = c.reg r) ∧
      s'.csr .sepc = c.pc ∧ s'.csr .sstatus = c.status ∧ s'.mem = s.mem := by
  have hpal := hf.pcb_aligned
  have hsal := hf.sp_aligned
  have hplt := hf.pcb_lt
  have hslt := hf.sp_lt
  have hto := run_toFrame hf htp hk.kernelSp (.ld .t0 offsetRegSepc .sp :: .csrw .sepc .t0 ::
    .ld .t1 offsetRegSstatus .sp :: .csrw .sstatus .t1 ::
      (loads .sp frameRegs ++ [.ld .sp pcbUserSp .tp]))
  set s₁ := s.set .sp (BitVec.ofNat 64 (sp + switchToSize)) with hs₁
  have hbase : (s₁.get .sp).toNat = sp + switchToSize := by
    rw [hs₁, get_set _ _ (by decide), frame_toNat hf]
  -- the two registers `sret` reads
  have hepc := exec_ld (s := s₁) (r := .t0) (b := .sp) (o := offsetRegSepc)
    (by rw [hbase]; unfold switchToSize offsetSize offsetRegSepc at *; omega)
    (by rw [hbase]; unfold switchToSize offsetRegSepc; omega)
  rw [hbase, show s₁.mem = s.mem from rfl, hk.sepc] at hepc
  have hepcw : exec (.csrw .sepc .t0) (s₁.set .t0 c.pc) = some ((s₁.set .t0 c.pc).setCsr .sepc c.pc) := by
    simp only [exec, get_set s₁ _ (by decide : Reg.t0 ≠ .zero)]
  set s₂ := (s₁.set .t0 c.pc).setCsr .sepc c.pc with hs₂
  have hbase₂ : (s₂.get .sp).toNat = sp + switchToSize := by
    rw [hs₂, get_setCsr, get_set_of_ne _ _ (by decide), hbase]
  have hstat := exec_ld (s := s₂) (r := .t1) (b := .sp) (o := offsetRegSstatus)
    (by rw [hbase₂]; unfold switchToSize offsetSize offsetRegSstatus at *; omega)
    (by rw [hbase₂]; unfold switchToSize offsetRegSstatus; omega)
  rw [hbase₂, show s₂.mem = s.mem from rfl, hk.sstatus] at hstat
  have hstatw : exec (.csrw .sstatus .t1) (s₂.set .t1 c.status) =
      some ((s₂.set .t1 c.status).setCsr .sstatus c.status) := by
    simp only [exec, get_set s₂ _ (by decide : Reg.t1 ≠ .zero)]
  set s₃ := (s₂.set .t1 c.status).setCsr .sstatus c.status with hs₃
  have hbase₃ : (s₃.get .sp).toNat = sp + switchToSize := by
    rw [hs₃, get_setCsr, get_set_of_ne _ _ (by decide), hbase₂]
  -- the general registers
  obtain ⟨s₄, hloads, hslot, hother, hcsr, hmem⟩ := run_loads slots_frameRegs.tail
    (by decide) (by decide : Reg.sp ∉ frameRegs.map Prod.fst) (by decide) (s := s₃)
    (by rw [hbase₃]; unfold switchToSize; omega)
    (by rw [hbase₃]; unfold switchToSize offsetSize at *; omega)
  rw [hbase₃, show s₃.mem = s.mem from rfl] at hslot
  have hregs : ∀ p ∈ frameRegs, s₄.get p.1 = c.reg p.1 := by
    intro p hp
    rw [hslot p hp]
    exact hk.regs p hp
  have htp₄ : (s₄.get .tp).toNat = pcb := by
    rw [hregs (.tp, 32) (by decide)]
    exact hc
  -- and at last the program's `sp`
  have hlast := exec_ld (s := s₄) (r := .sp) (b := .tp) (o := pcbUserSp)
    (by unfold pcbUserSp; omega) (by unfold pcbUserSp; omega)
  rw [htp₄, hmem, show s₃.mem = s.mem from rfl, hk.userSp] at hlast
  refine ⟨s₄.set .sp (c.reg .sp), ?_, ?_, ?_, ?_, hmem⟩
  · have hwhole : restoreContext = .ld .sp pcbKernelSp .tp :: .addi .sp .sp switchToSize ::
        .ld .t0 offsetRegSepc .sp :: .csrw .sepc .t0 :: .ld .t1 offsetRegSstatus .sp ::
          .csrw .sstatus .t1 :: (loads .sp frameRegs ++ [.ld .sp pcbUserSp .tp]) := rfl
    rw [hwhole, hto, run_cons_some hepc, run_cons_some hepcw, run_cons_some hstat,
      run_cons_some hstatw, run_append_some hloads, run_cons_some hlast]
    rfl
  · intro r hr
    by_cases hsp : r = .sp
    · rw [hsp, get_set _ _ (by decide)]
    · rw [get_set_of_ne _ _ hsp]
      have hin : r ∈ frameRegs.map Prod.fst := by
        cases r <;> first | exact absurd rfl hr | exact absurd rfl hsp | decide
      obtain ⟨p, hp, rfl⟩ := List.mem_map.mp hin
      exact hregs p hp
  · change s₄.csr .sepc = _
    rw [hcsr]
    rfl
  · change s₄.csr .sstatus = _
    rw [hcsr]
    rfl

end Frame

/-! ## Switching -/

section Switch

variable {s : Cpu} {prev prevSp next nextSp : Nat}

/-- Keeping the registers of the caller. -/
theorem run_park (hf : Fits prev prevSp) (ha0 : (s.get .a0).toNat = prev)
    (hsp : (dword s.mem prev).toNat = prevSp) (is : List Instr) :
    ∃ s', run (.ld .t0 pcbKernelSp .a0 :: (saves .t0 calleeRegs ++ is)) s = run is s' ∧
      Parked s'.mem prev prevSp s.get ∧ (∀ r, r ≠ .t0 → s'.get r = s.get r) ∧ s'.csr = s.csr ∧
      ∀ a, ¬(prevSp ≤ a ∧ a < prevSp + switchToSize) → s'.mem a = s.mem a := by
  have hsal := hf.sp_aligned
  have hslt := hf.sp_lt
  have hapart := hf.apart
  have hld := exec_ld (s := s) (r := .t0) (b := .a0) (o := pcbKernelSp)
    (by have := hf.pcb_lt; unfold pcbKernelSp; omega)
    (by have := hf.pcb_aligned; unfold pcbKernelSp; omega)
  have hzero : (s.get .a0).toNat + pcbKernelSp = prev := by rw [ha0]; rfl
  rw [hzero] at hld
  set s₁ := s.set .t0 (dword s.mem prev) with hs₁
  have hbase : (s₁.get .t0).toNat = prevSp := by rw [hs₁, get_set _ _ (by decide), hsp]
  obtain ⟨m, hrun, hslot, hother⟩ := run_saves slots_calleeRegs (s := s₁) (b := .t0)
    (by rw [hbase]; exact hsal)
    (by rw [hbase]; unfold switchToSize offsetSize at *; omega)
  rw [hbase] at hslot hother
  have hframe : ∀ a, ¬(prevSp ≤ a ∧ a < prevSp + switchToSize) → m a = s.mem a := by
    intro a ha
    refine hother a fun p hp => ?_
    have hin := slots_calleeRegs.inside p hp
    omega
  refine ⟨s₁.setMem m, ?_, ⟨?_, ?_⟩, ?_, rfl, hframe⟩
  · rw [run_cons_some hld, run_append_some hrun]
  · rw [mem_setMem, dword_congr (w := s.mem) fun a _ _ =>
      hframe a (by unfold switchToSize offsetSize at *; omega)]
    exact hsp
  · intro p hp
    have hne : p.1 ≠ .t0 := by
      revert p
      decide
    rw [mem_setMem, hslot p hp, hs₁, get_set_of_ne _ _ hne]
  · intro r hr
    rw [get_setMem, hs₁, get_set_of_ne _ _ hr]

/-- Bringing those of another process back. -/
theorem run_unpark (hf : Fits next nextSp) (ha1 : (s.get .a1).toNat = next) {reg : Reg → Word}
    (hk : Parked s.mem next nextSp reg) :
    ∃ s', run (.add .tp .a1 .zero :: .ld .t0 pcbKernelSp .tp :: loads .t0 calleeRegs) s = some s' ∧
      (∀ p ∈ calleeRegs, s'.get p.1 = reg p.1) ∧ s'.get .tp = s.get .a1 ∧ s'.csr = s.csr ∧
      s'.mem = s.mem := by
  have hsal := hf.sp_aligned
  have hslt := hf.sp_lt
  have hadd : exec (.add .tp .a1 .zero) s = some (s.set .tp (s.get .a1)) := by
    have hzero : s.get .a1 + s.get .zero = s.get .a1 := BitVec.add_zero _
    simp only [exec, hzero]
  set s₁ := s.set .tp (s.get .a1) with hs₁
  have htp : (s₁.get .tp).toNat = next := by rw [hs₁, get_set _ _ (by decide), ha1]
  have hld := exec_ld (s := s₁) (r := .t0) (b := .tp) (o := pcbKernelSp)
    (by have := hf.pcb_lt; unfold pcbKernelSp; omega)
    (by have := hf.pcb_aligned; unfold pcbKernelSp; omega)
  have hzero : (s₁.get .tp).toNat + pcbKernelSp = next := by rw [htp]; rfl
  rw [hzero] at hld
  set s₂ := s₁.set .t0 (dword s₁.mem next) with hs₂
  have hbase : (s₂.get .t0).toNat = nextSp := by
    rw [hs₂, get_set _ _ (by decide)]
    exact hk.kernelSp
  obtain ⟨s₃, hrun, hslot, hother, hcsr, hmem⟩ := run_loads slots_calleeRegs (by decide)
    (by decide : Reg.t0 ∉ calleeRegs.map Prod.fst) (by decide) (s := s₂)
    (by rw [hbase]; exact hsal)
    (by rw [hbase]; unfold switchToSize offsetSize at *; omega)
  rw [hbase] at hslot
  refine ⟨s₃, ?_, ?_, ?_, hcsr, hmem⟩
  · rw [run_cons_some hadd, run_cons_some hld, hrun]
  · intro p hp
    rw [hslot p hp]
    exact hk.regs p hp
  · rw [hother .tp (by decide), hs₂, get_set_of_ne _ _ (by decide), hs₁, get_set _ _ (by decide)]

/-- **Switching.**  The registers of the caller are kept on its kernel stack, and those of the
process that is switched to come back from its own. -/
theorem switchTo_spec (hf : Fits prev prevSp) (hf' : Fits next nextSp)
    (ha0 : (s.get .a0).toNat = prev) (ha1 : (s.get .a1).toNat = next)
    (hsp : (dword s.mem prev).toNat = prevSp) :
    ∃ m, Parked m prev prevSp s.get ∧
      (∀ a, ¬(prevSp ≤ a ∧ a < prevSp + switchToSize) → m a = s.mem a) ∧
      ∀ reg, Parked m next nextSp reg → ∃ s', run switchTo s = some s' ∧
        (∀ p ∈ calleeRegs, s'.get p.1 = reg p.1) ∧ s'.get .tp = s.get .a1 ∧ s'.csr = s.csr ∧
        s'.mem = m := by
  have hwhole : switchTo = .ld .t0 pcbKernelSp .a0 :: (saves .t0 calleeRegs ++
      (.add .tp .a1 .zero :: .ld .t0 pcbKernelSp .tp :: loads .t0 calleeRegs)) := rfl
  obtain ⟨s₁, hrun, hpark, hget, hcsr, hframe⟩ := run_park hf ha0 hsp
    (.add .tp .a1 .zero :: .ld .t0 pcbKernelSp .tp :: loads .t0 calleeRegs)
  have ha1' : s₁.get .a1 = s.get .a1 := hget .a1 (by decide)
  refine ⟨s₁.mem, hpark, hframe, fun reg hk => ?_⟩
  obtain ⟨s', hrun', hregs, htp, hcsr', hmem⟩ := run_unpark hf' (by rw [ha1', ha1]) hk
  exact ⟨s', by rw [hwhole, hrun, hrun'], hregs, htp.trans ha1', hcsr'.trans hcsr, hmem⟩

end Switch

end Kernel
