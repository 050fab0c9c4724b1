import OslabRiscv.Lib.ByteStore
import OslabRiscv.Lib.LittleEndian

/-!
# RISC-V assembly

The registers, the control and status registers and the memory of a 64-bit hart, and the
instructions that straight-line supervisor code is written in.  An access that is not aligned to
its size traps, so it has no result here.

`run_saves` and `run_loads` are about the two things such code is full of: storing a table of
registers at offsets from a base, and loading one.
-/

namespace Assembly

open ByteStore

abbrev Word := BitVec 64

/-! ## Memory -/

/-- The number in the `n` bytes from address `a` on, lowest byte first. -/
def load (n : Nat) (m : Store) (a : Nat) : Nat :=
  LittleEndian.value ((List.range n).map fun k => m (a + k))

/-- The `n` lowest bytes of `v` go to address `a` and the addresses behind it. -/
def store (n : Nat) (m : Store) (a v : Nat) : Store := fun k =>
  if a ≤ k ∧ k < a + n then UInt8.ofNat (v / 256 ^ (k - a)) else m k

/-- The doubleword at an address. -/
def dword (m : Store) (a : Nat) : Word := BitVec.ofNat 64 (load 8 m a)

/-- The bytes of a number, little endian, as a list. -/
theorem map_range_eq_bytes (n v : Nat) :
    (List.range n).map (fun k => UInt8.ofNat (v / 256 ^ k)) = LittleEndian.bytes n v := by
  induction n generalizing v with
  | zero => rfl
  | succ n ih =>
      rw [List.range_succ_eq_map, List.map_cons, List.map_map, LittleEndian.bytes, ← ih]
      congr 1
      · rw [pow_zero, Nat.div_one]
      · refine List.map_congr_left fun k _ => ?_
        rw [Function.comp_apply, Nat.succ_eq_add_one, pow_succ', Nat.div_div_eq_div_mul]

/-- What was stored is loaded, as far as it fits. -/
theorem load_store (n : Nat) (m : Store) (a v : Nat) : load n (store n m a v) a = v % 256 ^ n := by
  unfold load
  rw [← LittleEndian.value_bytes, ← map_range_eq_bytes]
  refine congrArg _ (List.map_congr_left fun k hk => ?_)
  have hlt : k < n := List.mem_range.mp hk
  unfold store
  rw [if_pos ⟨by omega, by omega⟩, Nat.add_sub_cancel_left]

/-- A load reads its own bytes. -/
theorem load_congr {n : Nat} {m m' : Store} {a : Nat} (h : ∀ k, k < n → m (a + k) = m' (a + k)) :
    load n m a = load n m' a :=
  congrArg _ (List.map_congr_left fun k hk => h k (List.mem_range.mp hk))

theorem store_apply_of_ne {n : Nat} (m : Store) {a k : Nat} (v : Nat) (h : k < a ∨ a + n ≤ k) :
    store n m a v k = m k := by
  unfold store
  rw [if_neg (by omega)]

/-- A word reads its eight bytes. -/
theorem dword_congr {m w : Store} {a : Nat} (h : ∀ k, a ≤ k → k < a + 8 → m k = w k) :
    dword m a = dword w a := by
  have hload : load 8 m a = load 8 w a := load_congr fun k hk => h (a + k) (by omega) (by omega)
  unfold dword
  rw [hload]

/-- A word that was stored is read back. -/
theorem dword_store (m : Store) (a : Nat) (v : Word) : dword (store 8 m a v.toNat) a = v := by
  unfold dword
  rw [load_store]
  apply BitVec.eq_of_toNat_eq
  have hv := v.isLt
  rw [BitVec.toNat_ofNat]
  omega

theorem dword_store_of_ne (m : Store) {a b : Nat} (v : Nat) (h : b + 8 ≤ a ∨ a + 8 ≤ b) :
    dword (store 8 m a v) b = dword m b :=
  dword_congr fun _ hlo hhi => store_apply_of_ne m v (by omega)

/-! ## The hart -/

inductive Reg
  | zero | ra | sp | gp | tp | t0 | t1 | t2 | s0 | s1
  | a0 | a1 | a2 | a3 | a4 | a5 | a6 | a7
  | s2 | s3 | s4 | s5 | s6 | s7 | s8 | s9 | s10 | s11
  | t3 | t4 | t5 | t6
  deriving DecidableEq, Repr

inductive Csr
  | sstatus | sie | sip | stvec | sepc | stval | scause | mhartid
  deriving DecidableEq, Repr

structure Cpu where
  reg : Reg → Word
  csr : Csr → Word
  mem : Store

namespace Cpu

/-- Register `zero` reads as zero whatever is written to it. -/
def get (s : Cpu) (r : Reg) : Word := if r = .zero then 0 else s.reg r

def set (s : Cpu) (r : Reg) (v : Word) : Cpu := { s with reg := Function.update s.reg r v }

def setCsr (s : Cpu) (c : Csr) (v : Word) : Cpu := { s with csr := Function.update s.csr c v }

def setMem (s : Cpu) (m : Store) : Cpu := { s with mem := m }

/-- The address an instruction accesses. -/
def addr (s : Cpu) (rs : Reg) (off : Int) : Nat := (s.get rs + BitVec.ofInt 64 off).toNat

variable (s : Cpu) {r r' : Reg} (v : Word)

@[simp] theorem get_zero : s.get .zero = 0 := rfl

theorem get_of_ne (h : r ≠ .zero) : s.get r = s.reg r := if_neg h

/-- A register that was set. -/
theorem get_set (h : r ≠ .zero) : (s.set r v).get r = v := by
  unfold get set
  rw [if_neg h]
  exact Function.update_self ..

theorem get_set_of_ne (h : r' ≠ r) : (s.set r v).get r' = s.get r' := by
  unfold get set
  by_cases hz : r' = .zero
  · rw [if_pos hz, if_pos hz]
  · rw [if_neg hz, if_neg hz]
    exact Function.update_of_ne h ..

/-- Of two writes the last one counts. -/
theorem set_set (w : Word) : (s.set r v).set r w = s.set r w := by
  unfold set
  rw [Function.update_idem]

@[simp] theorem csr_set : (s.set r v).csr = s.csr := rfl

@[simp] theorem mem_set : (s.set r v).mem = s.mem := rfl

@[simp] theorem get_setCsr (c : Csr) : (s.setCsr c v).get r = s.get r := rfl

@[simp] theorem mem_setCsr (c : Csr) : (s.setCsr c v).mem = s.mem := rfl

@[simp] theorem get_setMem (m : Store) (r : Reg) : (s.setMem m).get r = s.get r := rfl

@[simp] theorem csr_setMem (m : Store) : (s.setMem m).csr = s.csr := rfl

@[simp] theorem mem_setMem (m : Store) : (s.setMem m).mem = m := rfl

@[simp] theorem setMem_setMem (m m' : Store) : (s.setMem m).setMem m' = s.setMem m' := rfl

/-- An offset that does not run over the end of the address space. -/
theorem addr_eq {s : Cpu} {o : Nat} (h : (s.get r).toNat + o < 2 ^ 64) :
    s.addr r o = (s.get r).toNat + o := by
  unfold addr
  rw [BitVec.ofInt_natCast, BitVec.toNat_add, BitVec.toNat_ofNat]
  omega

end Cpu

/-! ## Instructions -/

inductive Instr
  | ld (rd : Reg) (off : Int) (rs : Reg)
  | lh (rd : Reg) (off : Int) (rs : Reg)
  | sd (rs2 : Reg) (off : Int) (rs1 : Reg)
  | sw (rs2 : Reg) (off : Int) (rs1 : Reg)
  | sb (rs2 : Reg) (off : Int) (rs1 : Reg)
  | add (rd rs1 rs2 : Reg)
  | sub (rd rs1 rs2 : Reg)
  | addi (rd rs : Reg) (imm : Int)
  | li (rd : Reg) (imm : Int)
  | csrr (rd : Reg) (c : Csr)
  | csrw (c : Csr) (rs : Reg)
  | csrs (c : Csr) (rs : Reg)
  deriving DecidableEq, Repr

open Cpu

/-- A store of the `n` lowest bytes of a register. -/
def execStore (n : Nat) (rs2 : Reg) (off : Int) (rs1 : Reg) (s : Cpu) : Option Cpu :=
  let a := s.addr rs1 off
  if a % n = 0 then some (s.setMem (store n s.mem a (s.get rs2).toNat)) else none

def exec : Instr → Cpu → Option Cpu
  | .ld rd off rs, s =>
    let a := s.addr rs off
    if a % 8 = 0 then some (s.set rd (dword s.mem a)) else none
  | .lh rd off rs, s =>
    let a := s.addr rs off
    if a % 2 = 0 then some (s.set rd ((BitVec.ofNat 16 (load 2 s.mem a)).signExtend 64)) else none
  | .sd rs2 off rs1, s => execStore 8 rs2 off rs1 s
  | .sw rs2 off rs1, s => execStore 4 rs2 off rs1 s
  | .sb rs2 off rs1, s => execStore 1 rs2 off rs1 s
  | .add rd rs1 rs2, s => some (s.set rd (s.get rs1 + s.get rs2))
  | .sub rd rs1 rs2, s => some (s.set rd (s.get rs1 - s.get rs2))
  | .addi rd rs imm, s => some (s.set rd (s.get rs + BitVec.ofInt 64 imm))
  | .li rd imm, s => some (s.set rd (BitVec.ofInt 64 imm))
  | .csrr rd c, s => some (s.set rd (s.csr c))
  | .csrw c rs, s => some (s.setCsr c (s.get rs))
  | .csrs c rs, s => some (s.setCsr c (s.csr c ||| s.get rs))

/-- One instruction after the other. -/
def run : List Instr → Cpu → Option Cpu
  | [], s => some s
  | i :: is, s => (exec i s).bind (run is)

/-- A program in two parts. -/
theorem run_append (is js : List Instr) (s : Cpu) :
    run (is ++ js) s = (run is s).bind (run js) := by
  induction is generalizing s with
  | nil => rfl
  | cons i is ih =>
      change (exec i s).bind (run (is ++ js)) = ((exec i s).bind (run is)).bind (run js)
      cases exec i s with
      | none => rfl
      | some s' => exact ih s'

/-- The same, when the first part runs through. -/
theorem run_append_some {is js : List Instr} {s s' : Cpu} (h : run is s = some s') :
    run (is ++ js) s = run js s' := by
  rw [run_append, h]
  rfl

/-- A program whose first instruction has run. -/
theorem run_cons_some {i : Instr} {is : List Instr} {s s' : Cpu} (h : exec i s = some s') :
    run (i :: is) s = run is s' := by
  change (exec i s).bind (run is) = _
  rw [h]
  rfl

section Access

variable {s : Cpu} {r b : Reg} {o : Nat}

/-- A load within the address space, at an aligned address. -/
theorem exec_ld (hfit : (s.get b).toNat + o < 2 ^ 64)
    (hal : ((s.get b).toNat + o) % 8 = 0) :
    exec (.ld r o b) s = some (s.set r (dword s.mem ((s.get b).toNat + o))) := by
  simp only [exec, addr_eq hfit]
  exact if_pos hal

/-- A store within the address space, at an aligned address. -/
theorem exec_sd (hfit : (s.get b).toNat + o < 2 ^ 64)
    (hal : ((s.get b).toNat + o) % 8 = 0) :
    exec (.sd r o b) s =
      some (s.setMem (store 8 s.mem ((s.get b).toNat + o) (s.get r).toNat)) := by
  simp only [exec, execStore, addr_eq hfit]
  exact if_pos hal

end Access

/-! ## Tables of registers -/

/-- A table of registers with the offsets they are stored at. -/
abbrev Table := List (Reg × Nat)

def saves (b : Reg) (t : Table) : List Instr := t.map fun p => .sd p.1 p.2 b

def loads (b : Reg) (t : Table) : List Instr := t.map fun p => .ld p.1 p.2 b

/-- The slots of the table are doublewords of an area, and no two of them are the same. -/
structure Slots (size : Nat) (t : Table) : Prop where
  inside : ∀ p ∈ t, p.2 % 8 = 0 ∧ p.2 + 8 ≤ size
  apart : (t.map Prod.snd).Nodup

instance (size : Nat) (t : Table) : Decidable (Slots size t) :=
  decidable_of_iff ((∀ p ∈ t, p.2 % 8 = 0 ∧ p.2 + 8 ≤ size) ∧ (t.map Prod.snd).Nodup)
    ⟨fun h => ⟨h.1, h.2⟩, fun h => ⟨h.inside, h.apart⟩⟩

theorem Slots.tail {size : Nat} {p : Reg × Nat} {t : Table} (h : Slots size (p :: t)) :
    Slots size t :=
  ⟨fun q hq => h.inside q (List.mem_cons_of_mem _ hq), (List.nodup_cons.mp h.apart).2⟩

/-- The first slot is apart from the others. -/
theorem Slots.head_apart {size : Nat} {p : Reg × Nat} {t : Table} (h : Slots size (p :: t))
    {q : Reg × Nat} (hq : q ∈ t) : q.2 + 8 ≤ p.2 ∨ p.2 + 8 ≤ q.2 := by
  have hp := h.inside p List.mem_cons_self
  have hq' := h.inside q (List.mem_cons_of_mem _ hq)
  have hne : p.2 ≠ q.2 := by
    intro heq
    exact (List.nodup_cons.mp h.apart).1 (heq ▸ List.mem_map_of_mem hq)
  omega

/-- Every register of the table is in its slot, and nothing else was written. -/
structure Saved (t : Table) (base : Nat) (s : Cpu) (m : Store) : Prop where
  slot : ∀ p ∈ t, dword m (base + p.2) = s.get p.1
  other : ∀ k, (∀ p ∈ t, k < base + p.2 ∨ base + p.2 + 8 ≤ k) → m k = s.mem k

/-- A block of stores saves the registers of its table, by induction on the table. -/
theorem run_saves {size : Nat} {b : Reg} {t : Table} (ht : Slots size t) {s : Cpu}
    (hal : (s.get b).toNat % 8 = 0) (hfit : (s.get b).toNat + size ≤ 2 ^ 64) :
    ∃ m, run (saves b t) s = some (s.setMem m) ∧ Saved t (s.get b).toNat s m := by
  induction t generalizing s with
  | nil => exact ⟨s.mem, rfl, fun p hp => absurd hp List.not_mem_nil, fun _ _ => rfl⟩
  | cons p t ih =>
      have hp := ht.inside p List.mem_cons_self
      have hstore := exec_sd (s := s) (r := p.1) (b := b) (o := p.2) (by omega) (by omega)
      obtain ⟨m, hrun, hslot, hother⟩ :=
        ih ht.tail (s := s.setMem (store 8 s.mem ((s.get b).toNat + p.2) (s.get p.1).toNat)) hal hfit
      refine ⟨m, (run_cons_some hstore).trans hrun, ?_, ?_⟩
      · intro q hq
        rcases List.mem_cons.mp hq with rfl | hq
        · -- the slots behind are apart from this one
          have hkeep : dword m ((s.get b).toNat + q.2) =
              dword (store 8 s.mem ((s.get b).toNat + q.2) (s.get q.1).toNat)
                ((s.get b).toNat + q.2) := by
            refine dword_congr fun k hlo hhi => hother k fun q' hq' => ?_
            have hne := ht.head_apart hq'
            change k < (s.get b).toNat + q'.2 ∨ (s.get b).toNat + q'.2 + 8 ≤ k
            omega
          rw [hkeep, dword_store]
        · exact hslot q hq
      · intro k hk
        have hrest := hother k fun q hq => hk q (List.mem_cons_of_mem _ hq)
        rw [hrest]
        exact store_apply_of_ne s.mem _ (hk p List.mem_cons_self)

/-- Every register of the table has been loaded from its slot, and no other has changed. -/
structure Loaded (t : Table) (base : Nat) (s s' : Cpu) : Prop where
  slot : ∀ p ∈ t, s'.get p.1 = dword s.mem (base + p.2)
  other : ∀ r, r ∉ t.map Prod.fst → s'.get r = s.get r
  csr : s'.csr = s.csr
  mem : s'.mem = s.mem

/-- A block of loads restores the registers of its table, by induction on the table. -/
theorem run_loads {size : Nat} {b : Reg} {t : Table} (ht : Slots size t)
    (hnodup : (t.map Prod.fst).Nodup) (hb : b ∉ t.map Prod.fst) (hz : Reg.zero ∉ t.map Prod.fst)
    {s : Cpu} (hal : (s.get b).toNat % 8 = 0) (hfit : (s.get b).toNat + size ≤ 2 ^ 64) :
    ∃ s', run (loads b t) s = some s' ∧ Loaded t (s.get b).toNat s s' := by
  induction t generalizing s with
  | nil => exact ⟨s, rfl, fun p hp => absurd hp List.not_mem_nil, fun _ _ => rfl, rfl, rfl⟩
  | cons p t ih =>
      have hp := ht.inside p List.mem_cons_self
      simp only [List.map_cons, List.mem_cons, not_or] at hb hz
      simp only [List.map_cons, List.nodup_cons] at hnodup
      have hload := exec_ld (s := s) (r := p.1) (b := b) (o := p.2) (by omega) (by omega)
      have hbase : (s.set p.1 (dword s.mem ((s.get b).toNat + p.2))).get b = s.get b :=
        get_set_of_ne s _ hb.1
      obtain ⟨s', hrun, hs'⟩ := ih ht.tail hnodup.2 hb.2 hz.2
        (s := s.set p.1 (dword s.mem ((s.get b).toNat + p.2)))
        (by rw [hbase]; exact hal) (by rw [hbase]; exact hfit)
      rw [hbase] at hs'
      refine ⟨s', (run_cons_some hload).trans hrun, ?_, ?_, hs'.csr, hs'.mem⟩
      · intro q hq
        rcases List.mem_cons.mp hq with rfl | hq
        · rw [hs'.other _ hnodup.1, get_set s _ (Ne.symm hz.1)]
        · exact hs'.slot q hq
      · intro r hr
        simp only [List.map_cons, List.mem_cons, not_or] at hr
        rw [hs'.other r hr.2, get_set_of_ne s _ hr.1]

end Assembly
