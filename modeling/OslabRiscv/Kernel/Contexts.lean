import OslabRiscv.Kernel.Harts

/-!
# Every process has registers of its own

`Agrees` relates what the processes are to what the machine holds: the context of a process is on
the hart that runs it, or kept on its kernel stack; a process that no hart has as its own is parked
in `switch_to`.  Each event keeps this (`step_agrees`), so every run does, on any number of harts
(`contexts_kept`).
-/

namespace Kernel

open Assembly ByteStore Cpu Outcome

variable {η : Type} [DecidableEq η]

/-- The hart shows a program this context. -/
structure Hart.Shows (x : Hart) (c : Context) : Prop where
  reg : ∀ r, r ≠ .zero → x.reg r = c.reg r
  pc : x.pc = c.pc
  status : trapStatus x.mode (x.csr .sstatus) = c.status

structure Agrees (a : Processes η) (s : Machine η) : Prop where
  fits : ∀ p sp, a.stack p = some sp → Fits p sp
  kernelSp : ∀ p sp, a.stack p = some sp → (dword s.mem p).toNat = sp
  apart : ∀ p q sp sq, p ≠ q → a.stack p = some sp → a.stack q = some sq →
    ∀ x, InArea p sp x → ¬InArea q sq x
  tp : ∀ p sp, a.stack p = some sp → ((a.context p).reg .tp).toNat = p
  sie : ∀ p sp, a.stack p = some sp → (a.context p).status.getLsbD bitSie = false
  here : ∀ h, ∃ sp, a.stack (a.cur h) = some sp
  hartTp : ∀ h, ((s.hart h).reg .tp).toNat = a.cur h
  alone : ∀ h h', a.cur h = a.cur h' → h = h'
  shown : ∀ h, (s.hart h).stage = .program → (s.hart h).Shows (a.context (a.cur h))
  kept : ∀ p sp, a.stack p = some sp → (∀ h, a.cur h = p → (s.hart h).stage ≠ .program) →
    Kept s.mem p sp (a.context p)
  parked : ∀ p sp, a.stack p = some sp → (∀ h, a.cur h ≠ p) → Parked s.mem p sp (a.parked p)

/-- What the C code, the programs and the page tables see to: `tp` stays, the bytes the registers
of processes are kept in are left alone; a new process is none that a hart has as its own, in bytes
of its own; only a process that no other hart has is switched to. -/
def Allowed (x : Processes η × Machine η) (e : Event η) : Prop :=
  let a := x.1
  let s := x.2
  (s.hart e.hart).stage = e.stage ∧
  match e with
  | .compute h reg _ mem | .kernel h reg mem =>
    reg .tp = (s.hart h).reg .tp ∧ ∀ p sp, a.stack p = some sp → ∀ b, InArea p sp b → mem b = s.mem b
  | .swap h reg => reg .tp = (s.hart h).reg .tp
  | .create _ pcb top start _ =>
    (∀ h, a.cur h ≠ pcb) ∧ switchToSize + offsetSize ≤ top ∧
      Fits pcb (top - offsetSize - switchToSize) ∧ start.status.getLsbD bitSie = false ∧
      ∀ q sq, q ≠ pcb → a.stack q = some sq → ∀ b, InArea q sq b →
        ¬InArea pcb (top - offsetSize - switchToSize) b
  | .switch h next => (∃ sp, a.stack next = some sp) ∧ ∀ h', h' ≠ h → a.cur h' ≠ next
  | _ => True

/-- A step of the machine, with what becomes of the processes. -/
def stepBoth (e : Event η) (x : Processes η × Machine η) : Except Stop (Processes η × Machine η) := do
  let s ← step e x.2
  .ok (note e x.2 x.1, s)

/-! ## One event -/

section Events

variable {a : Processes η} {s : Machine η} {h : η} {p sp : Nat}

/-- The machine with another hart, and other memory. -/
def Machine.with (s : Machine η) (h : η) (x : Hart) (m : Store) (l : LockStatus) : Machine η :=
  ⟨m, l, Function.update s.hart h x⟩

/-- The hart that a step has changed. -/
theorem hart_with (x : Hart) (m : Store) (l : LockStatus) : (s.with h x m l).hart h = x :=
  Function.update_self ..

theorem hart_with_of_ne {h' : η} (hne : h' ≠ h) (x : Hart) (m : Store) (l : LockStatus) :
    (s.with h x m l).hart h' = s.hart h' :=
  Function.update_of_ne hne ..

/-- The areas of all processes are as they were. -/
def AreasKept (a : Processes η) (m m' : Store) : Prop :=
  ∀ p sp, a.stack p = some sp → ∀ b, InArea p sp b → m' b = m b

/-- **An event on one hart** that leaves its process to it: what has to be shown is about this
process and this hart. -/
theorem Agrees.local (hA : Agrees a s) {c : Context} {x : Hart} {m : Store} {l : LockStatus}
    (hstack : a.stack (a.cur h) = some sp)
    (hmem : ∀ q sq, q ≠ a.cur h → a.stack q = some sq → ∀ b, InArea q sq b → m b = s.mem b)
    (hksp : (dword m (a.cur h)).toNat = sp) (htp : (c.reg .tp).toNat = a.cur h)
    (hsie : c.status.getLsbD bitSie = false) (hhart : (x.reg .tp).toNat = a.cur h)
    (hshown : x.stage = .program → x.Shows c) (hkept : x.stage ≠ .program → Kept m (a.cur h) sp c) :
    Agrees { a with context := Function.update a.context (a.cur h) c } (s.with h x m l) where
  fits := hA.fits
  kernelSp q sq hq := by
    by_cases hqp : q = a.cur h
    · subst hqp
      rw [hstack] at hq
      cases hq
      exact hksp
    · have hsame := dword_pcb (o := 0) (hmem q sq hqp hq) (by omega)
      rw [Nat.add_zero] at hsame
      change (dword m q).toNat = sq
      rw [hsame]
      exact hA.kernelSp q sq hq
  apart := hA.apart
  tp q sq hq := by
    by_cases hqp : q = a.cur h
    · subst hqp
      simp only [Function.update_self]
      exact htp
    · simp only [Function.update_of_ne hqp]
      exact hA.tp q sq hq
  sie q sq hq := by
    by_cases hqp : q = a.cur h
    · subst hqp
      simp only [Function.update_self]
      exact hsie
    · simp only [Function.update_of_ne hqp]
      exact hA.sie q sq hq
  here := hA.here
  hartTp h' := by
    by_cases hh : h' = h
    · subst hh
      rw [hart_with]
      exact hhart
    · rw [hart_with_of_ne hh]
      exact hA.hartTp h'
  alone := hA.alone
  shown h' hprog := by
    by_cases hh : h' = h
    · subst hh
      rw [hart_with] at hprog ⊢
      simp only [Function.update_self]
      exact hshown hprog
    · rw [hart_with_of_ne hh] at hprog ⊢
      have hne : a.cur h' ≠ a.cur h := fun heq => hh (hA.alone h' h heq)
      simp only [Function.update_of_ne hne]
      exact hA.shown h' hprog
  kept q sq hq hstage := by
    by_cases hqp : q = a.cur h
    · subst hqp
      rw [hstack] at hq
      cases hq
      simp only [Function.update_self]
      have hown := hstage h rfl
      rw [hart_with] at hown
      exact hkept hown
    · simp only [Function.update_of_ne hqp]
      refine (hA.kept q sq hq fun h' hcur => ?_).congr (hmem q sq hqp hq)
      have hh : h' ≠ h := fun heq => hqp (heq ▸ hcur.symm)
      have hown := hstage h' hcur
      rwa [hart_with_of_ne hh] at hown
  parked q sq hq hnone :=
    (hA.parked q sq hq hnone).congr (hmem q sq (fun heq => hnone h heq.symm) hq)

/-- Where the context stays, nothing has to be said of it. -/
theorem Agrees.stay (hA : Agrees a s) {x : Hart} {m : Store} {l : LockStatus}
    (hstack : a.stack (a.cur h) = some sp) (hmem : AreasKept a s.mem m)
    (hhart : (x.reg .tp).toNat = a.cur h) (hshown : x.stage = .program → x.Shows (a.context (a.cur h)))
    (hkept : x.stage ≠ .program → Kept m (a.cur h) sp (a.context (a.cur h))) :
    Agrees a (s.with h x m l) := by
  have hlocal := hA.local (c := a.context (a.cur h)) (l := l) hstack
    (fun q sq _ hq => hmem q sq hq)
    (by
      have hsame := dword_pcb (o := 0) (hmem _ _ hstack) (by omega)
      rw [Nat.add_zero] at hsame
      rw [hsame]
      exact hA.kernelSp _ _ hstack)
    (hA.tp _ _ hstack) (hA.sie _ _ hstack) hhart hshown hkept
  rw [Function.update_eq_self] at hlocal
  exact hlocal

omit [DecidableEq η] in
/-- A hart that has left its program keeps the context of its process behind the PCB. -/
theorem Agrees.kept_here (hA : Agrees a s) (hstack : a.stack (a.cur h) = some sp)
    (hstage : (s.hart h).stage ≠ .program) : Kept s.mem (a.cur h) sp (a.context (a.cur h)) := by
  refine hA.kept _ _ hstack fun h' hcur => ?_
  rw [hA.alone h' h hcur]
  exact hstage

/-! ### Computing -/

/-- A program that keeps `tp` and the kernel's areas computes in its own context. -/
theorem Agrees.compute (hA : Agrees a s) {reg : Reg → Word} {mem : Store} (pc : Word)
    (hprog : (s.hart h).stage = .program) (htp : reg .tp = (s.hart h).reg .tp)
    (hmem : AreasKept a s.mem mem) :
    Agrees
      { a with context := Function.update a.context (a.cur h) { a.context (a.cur h) with reg, pc } }
      (s.with h { s.hart h with reg, pc } mem s.lock) := by
  obtain ⟨sp, hstack⟩ := hA.here h
  have hhart : (reg .tp).toNat = a.cur h := by rw [htp, hA.hartTp]
  refine hA.local hstack (fun q sq _ hq => hmem q sq hq) ?_ hhart (hA.sie _ _ hstack) hhart ?_ ?_
  · have hsame := dword_pcb (o := 0) (hmem _ _ hstack) (by omega)
    rw [Nat.add_zero] at hsame
    rw [hsame]
    exact hA.kernelSp _ _ hstack
  · exact fun _ => ⟨fun _ _ => rfl, rfl, (hA.shown h hprog).status⟩
  · exact fun hne => absurd hprog hne

/-- The C code of the kernel, and the lock. -/
theorem Agrees.kernel (hA : Agrees a s) {reg : Reg → Word} {mem : Store} {stage : Stage}
    (l : LockStatus) (hstage : (s.hart h).stage ≠ .program) (hstage' : stage ≠ .program)
    (htp : reg .tp = (s.hart h).reg .tp) (hmem : AreasKept a s.mem mem) :
    Agrees a (s.with h { s.hart h with reg, stage } mem l) := by
  obtain ⟨sp, hstack⟩ := hA.here h
  refine hA.stay hstack hmem ?_ (fun hprog => absurd hprog hstage') fun _ => ?_
  · change (reg .tp).toNat = _
    rw [htp, hA.hartTp]
  · exact (hA.kept_here hstack hstage).congr (hmem _ _ hstack)

/-! ### Traps -/

/-- A context is kept up to its register `zero`, which is not stored. -/
theorem Kept.of_eq {m : Store} {c c' : Context} (hk : Kept m p sp c)
    (hreg : ∀ r, r ≠ .zero → c.reg r = c'.reg r) (hpc : c.pc = c'.pc) (hst : c.status = c'.status) :
    Kept m p sp c' where
  kernelSp := hk.kernelSp
  userSp := hk.userSp.trans (hreg .sp (by decide))
  regs q hq := by
    have hne : q.1 ≠ .zero := by
      revert q
      decide
    exact (hk.regs q hq).trans (hreg q.1 hne)
  sepc := hk.sepc.trans hpc
  sstatus := hk.sstatus.trans hst

/-- Instructions that run give the hart the registers and the memory they leave. -/
theorem execute_eq {is : List Instr} {x : Hart} {m : Store} {s' : Cpu}
    (hrun : run is (x.cpu m) = some s') :
    execute is x m = .ok ({ x with reg := s'.reg, csr := s'.csr }, s'.mem) := by
  unfold execute
  rw [hrun]

/-- Registers other than `zero` are read as they are. -/
theorem get_cpu (x : Hart) (m : Store) {r : Reg} (hr : r ≠ .zero) : (x.cpu m).get r = x.reg r :=
  get_of_ne _ hr

/-- What the handler finds is the context of the program at the trap. -/
theorem trapContext_trapped (x : Hart) (m : Store) (cause tval : Word) :
    trapContext ((x.trapped cause tval).cpu m) =
      ⟨(x.cpu m).get, x.pc, trapStatus x.mode (x.csr .sstatus)⟩ := rfl

/-- `SAVE_CONTEXT` runs, and keeps the context of the program behind its pcb. -/
theorem Agrees.trap (hA : Agrees a s) (hprog : (s.hart h).stage = .program) (cause tval : Word) :
    ∃ x m, execute saveContext ((s.hart h).trapped cause tval) s.mem = .ok (x, m) ∧
      Agrees a (s.with h { x with stage := .entered } m s.lock) := by
  obtain ⟨sp, hstack⟩ := hA.here h
  have hshown := hA.shown h hprog
  have htp := hA.hartTp h
  obtain ⟨s', hrun, hkept, htp', hframe⟩ :=
    saveContext_spec (s := ((s.hart h).trapped cause tval).cpu s.mem) (hA.fits _ _ hstack) htp
      (hA.kernelSp _ _ hstack)
  rw [trapContext_trapped] at hkept
  have hkept' : Kept s'.mem (a.cur h) sp (a.context (a.cur h)) :=
    hkept.of_eq (fun r hr => (get_cpu _ _ hr).trans (hshown.reg r hr)) hshown.pc hshown.status
  have htpEq : s'.reg .tp = (s.hart h).reg .tp := htp'
  refine ⟨_, _, execute_eq hrun, ?_⟩
  have hlocal := hA.local (h := h) (c := a.context (a.cur h))
    (x := ({ (s.hart h).trapped cause tval with
      reg := s'.reg, csr := s'.csr, stage := .entered } : Hart)) (m := s'.mem) (l := s.lock)
    hstack
    (fun q sq hne hq b hb => hframe b fun hown => hA.apart _ _ _ _ hne hq hstack b hb hown)
    hkept'.kernelSp (hA.tp _ _ hstack) (hA.sie _ _ hstack) ((congrArg BitVec.toNat htpEq).trans htp)
    (fun hstage => nomatch hstage) (fun _ => hkept')
  rw [Function.update_eq_self] at hlocal
  exact hlocal

/-- Behind `sret` the hart shows the program its context. -/
theorem Agrees.resume (hA : Agrees a s) (hleaving : (s.hart h).stage = .leaving) :
    ∃ x m, execute restoreContext (s.hart h) s.mem = .ok (x, m) ∧
      Agrees a (s.with h { x.sret with stage := .program } m s.lock) := by
  obtain ⟨sp, hstack⟩ := hA.here h
  have hkept := hA.kept_here hstack (by rw [hleaving]; decide)
  have htp := hA.hartTp h
  obtain ⟨s', hrun, hreg, hpc, hst, hmem⟩ := restoreContext_spec (s := (s.hart h).cpu s.mem)
    (hA.fits _ _ hstack) htp hkept (hA.tp _ _ hstack)
  refine ⟨_, _, execute_eq hrun, ?_⟩
  have hregs : ∀ r, r ≠ .zero → s'.reg r = (a.context (a.cur h)).reg r :=
    fun r hr => (get_of_ne s' hr).symm.trans (hreg r hr)
  refine hA.stay hstack ?_ ?_ (fun _ => ⟨hregs, hpc, ?_⟩) (fun hne => absurd rfl hne)
  · intro _ _ _ b _
    rw [hmem]
    rfl
  · change (s'.reg .tp).toNat = _
    rw [hregs .tp (by decide)]
    exact hA.tp _ _ hstack
  · change trapStatus (sretMode (s'.csr .sstatus))
      (Function.update s'.csr .sstatus (sretStatus (s'.csr .sstatus)) .sstatus) = _
    rw [Function.update_self, hst]
    exact trapStatus_sret (hA.sie _ _ hstack)

/-! ### System calls -/

omit [DecidableEq η] in
/-- The C code finds the frame of the process above its kernel stack. -/
theorem Agrees.frameAt_eq (hA : Agrees a s) (hstack : a.stack (a.cur h) = some sp) :
    frameAt (s.hart h) s.mem = sp + switchToSize := by
  have hlt := (hA.fits _ _ hstack).sp_lt
  unfold frameAt
  rw [hA.hartTp, BitVec.toNat_add, hA.kernelSp _ _ hstack, BitVec.toNat_ofNat]
  unfold switchToSize offsetSize at *
  omega

/-- A store into one slot of the frame leaves the other slots, and the PCB. -/
theorem Kept.store_slot {m : Store} {c : Context} (hk : Kept m p sp c) (hf : Fits p sp) {o : Nat}
    (v : Word) (hin : o + 8 ≤ offsetSize) :
    (dword (store 8 m (sp + switchToSize + o) v.toNat) p).toNat = sp ∧
      dword (store 8 m (sp + switchToSize + o) v.toNat) (p + pcbUserSp) = c.reg .sp ∧
      ∀ o', o' + 8 ≤ o ∨ o + 8 ≤ o' →
        dword (store 8 m (sp + switchToSize + o) v.toNat) (sp + switchToSize + o') =
          dword m (sp + switchToSize + o') := by
  have hapart := hf.apart
  unfold pcbUserSp switchToSize offsetSize at *
  refine ⟨?_, ?_, fun o' ho => ?_⟩
  · rw [dword_store_of_ne _ _ (by omega)]
    exact hk.kernelSp
  · rw [dword_store_of_ne _ _ (by omega)]
    exact hk.userSp
  · exact dword_store_of_ne _ _ (by omega)

/-- Moving the program past its `ecall` changes the pc that is kept. -/
theorem Kept.setPc {m : Store} {c : Context} (hk : Kept m p sp c) (hf : Fits p sp) (pc : Word) :
    Kept (store 8 m (sp + switchToSize + offsetRegSepc) pc.toNat) p sp { c with pc } := by
  obtain ⟨hksp, husp, hslot⟩ := hk.store_slot hf (o := offsetRegSepc) pc (by decide)
  refine ⟨hksp, husp, fun q hq => ?_, dword_store .., ?_⟩
  · have hlow : q.2 + 8 ≤ offsetRegSepc := by
      revert q
      decide
    rw [hslot _ (.inl hlow)]
    exact hk.regs q hq
  · rw [hslot _ (.inl (by decide))]
    exact hk.sstatus

/-- The result of a system call changes the register `a0` that is kept. -/
theorem Kept.setA0 {m : Store} {c : Context} (hk : Kept m p sp c) (hf : Fits p sp) (v : Word) :
    Kept (store 8 m (sp + switchToSize + offsetRegA0) v.toNat) p sp
      { c with reg := Function.update c.reg .a0 v } := by
  obtain ⟨hksp, husp, hslot⟩ := hk.store_slot hf (o := offsetRegA0) v (by decide)
  refine ⟨hksp, husp, fun q hq => ?_, ?_, ?_⟩
  · by_cases ha0 : q.1 = .a0
    · have hq2 : q.2 = offsetRegA0 := by
        revert q
        decide
      change _ = Function.update c.reg .a0 v q.1
      rw [hq2, dword_store, ha0, Function.update_self]
    · have hother : q.2 + 8 ≤ offsetRegA0 ∨ offsetRegA0 + 8 ≤ q.2 := by
        revert q
        decide
      change _ = Function.update c.reg .a0 v q.1
      rw [hslot _ hother, hk.regs q hq, Function.update_of_ne ha0]
  · rw [hslot _ (.inr (by decide))]
    exact hk.sepc
  · rw [hslot _ (.inr (by decide))]
    exact hk.sstatus

/-- A store into the frame of the hart's process. -/
theorem Agrees.storeFrame (hA : Agrees a s) (hstage : (s.hart h).stage ≠ .program)
    (hstack : a.stack (a.cur h) = some sp) {o : Nat} (hin : o + 8 ≤ offsetSize) (v : Word)
    {c : Context} (hk : Kept (store 8 s.mem (sp + switchToSize + o) v.toNat) (a.cur h) sp c)
    (htp : c.reg .tp = (a.context (a.cur h)).reg .tp)
    (hst : c.status = (a.context (a.cur h)).status) :
    Agrees { a with context := Function.update a.context (a.cur h) c }
      (s.with h (s.hart h) (store 8 s.mem (sp + switchToSize + o) v.toNat) s.lock) := by
  refine hA.local hstack ?_ hk.kernelSp ?_ ?_ (hA.hartTp h) (fun hprog => absurd hprog hstage)
    fun _ => hk
  · intro q sq hne hq b hb
    have hout := hA.apart _ _ _ _ hne hq hstack b hb
    refine store_apply_of_ne _ _ ?_
    unfold InArea at hout
    unfold switchToSize offsetSize at *
    omega
  · rw [htp]
    exact hA.tp _ _ hstack
  · rw [hst]
    exact hA.sie _ _ hstack

/-! ### New processes -/

/-- Stores one after the other. -/
theorem storeAll_append (base : Nat) (ws vs : List (Nat × Word)) (m : Store) :
    storeAll base (ws ++ vs) m = storeAll base vs (storeAll base ws m) :=
  List.foldl_append ..

/-- What is written last at an offset is read there. -/
theorem dword_storeAll {base o : Nat} {ws : List (Nat × Word)} (m : Store)
    (hws : ∀ w ∈ ws, w.1 % 8 = 0) (ho : o % 8 = 0) :
    dword (storeAll base ws m) (base + o) = (ws.reverse.lookup o).getD (dword m (base + o)) := by
  induction ws using List.reverseRecOn with
  | nil => rfl
  | append_singleton ws w ih =>
      have hw := hws w (by simp)
      have hlast : storeAll base (ws ++ [w]) m =
          store 8 (storeAll base ws m) (base + w.1) w.2.toNat := storeAll_append base ws [w] m
      rw [hlast, List.reverse_append, List.reverse_singleton, List.singleton_append,
        List.lookup_cons]
      by_cases heq : o = w.1
      · subst heq
        rw [dword_store, beq_self_eq_true]
        rfl
      · rw [beq_false_of_ne heq, dword_store_of_ne _ _ (by omega),
          ih fun v hv => hws v (List.mem_append_left _ hv)]

theorem storeAll_apply_of_ne {base k : Nat} {ws : List (Nat × Word)} (m : Store)
    (h : ∀ w ∈ ws, k < base + w.1 ∨ base + w.1 + 8 ≤ k) : storeAll base ws m k = m k := by
  induction ws generalizing m with
  | nil => rfl
  | cons w ws ih =>
      have hrest := ih (store 8 m (base + w.1) w.2.toNat) fun v hv => h v (List.mem_cons_of_mem _ hv)
      exact hrest.trans (store_apply_of_ne m _ (h w List.mem_cons_self))

/-- The memory behind the creation, for a kernel stack at `sp`. -/
def initArea (pcb sp : Nat) (start : Start) (ret : Word) (m : Store) : Store :=
  storeAll pcb [(pcbKernelSp, BitVec.ofNat 64 sp), (pcbUserSp, start.userSp)]
    (storeAll sp [(0, ret), (8, BitVec.ofNat 64 sp)]
      (storeAll (sp + switchToSize) (frameStores pcb start) m))

/-- What a new process starts with is stored inside its frame. -/
theorem frameStores_slots (pcb : Nat) (start : Start) :
    ∀ w ∈ frameStores pcb start, w.1 % 8 = 0 ∧ w.1 + 8 ≤ offsetSize := by
  have hoffsets : (frameStores pcb start).map Prod.fst = (List.range 32).map (8 * ·) ++
      [8, offsetRegTp, offsetRegSepc, offsetRegSstatus, offsetRegA0, 88, offsetRegSp] := rfl
  have hall : ∀ o ∈ (List.range 32).map (8 * ·) ++
      [8, offsetRegTp, offsetRegSepc, offsetRegSstatus, offsetRegA0, 88, offsetRegSp],
      o % 8 = 0 ∧ o + 8 ≤ offsetSize := by decide
  rw [← hoffsets] at hall
  exact fun w hw => hall w.1 (List.mem_map_of_mem hw)

theorem storeAll_pair_apply_of_ne {base k : Nat} (v w : Word) (m : Store)
    (h : k < base ∨ base + 16 ≤ k) : storeAll base [(0, v), (8, w)] m k = m k := by
  refine storeAll_apply_of_ne m fun u hu => ?_
  rcases List.mem_pair.mp hu with rfl | rfl
  · change k < base + 0 ∨ base + 0 + 8 ≤ k
    omega
  · change k < base + 8 ∨ base + 8 + 8 ≤ k
    omega

/-- The creation writes into the area of the new process only. -/
theorem initArea_apply_of_not_mem {pcb sp k : Nat} (start : Start) (ret : Word) (m : Store)
    (h : ¬InArea pcb sp k) : initArea pcb sp start ret m k = m k := by
  unfold InArea switchToSize offsetSize at h
  have hpcb : k < pcb ∨ pcb + 16 ≤ k := by omega
  have hstack : k < sp ∨ sp + 16 ≤ k := by omega
  refine (storeAll_pair_apply_of_ne _ _ _ hpcb).trans
    ((storeAll_pair_apply_of_ne _ _ _ hstack).trans (storeAll_apply_of_ne m fun w hw => ?_))
  have hin := (frameStores_slots pcb start w hw).2
  unfold switchToSize offsetSize at *
  omega

/-- The pcb of a new process holds its two stack pointers. -/
theorem dword_initArea_pcb (pcb sp : Nat) (start : Start) (ret : Word) (m : Store) :
    dword (initArea pcb sp start ret m) pcb = BitVec.ofNat 64 sp ∧
      dword (initArea pcb sp start ret m) (pcb + pcbUserSp) = start.userSp := by
  have hws : ∀ w ∈ [(pcbKernelSp, BitVec.ofNat 64 sp), (pcbUserSp, start.userSp)], w.1 % 8 = 0 := by
    intro w hw
    rcases List.mem_pair.mp hw with rfl | rfl
    · exact Nat.zero_mod 8
    · exact Nat.mod_self 8
  exact ⟨dword_storeAll (o := pcbKernelSp) _ hws (by decide), dword_storeAll _ hws (by decide)⟩

/-- The frame of a new process holds the last word stored at each offset. -/
theorem dword_initArea_frame {pcb sp o : Nat} (hf : Fits pcb sp) (start : Start) (ret : Word)
    (m : Store) (ho : o % 8 = 0) (hin : o + 8 ≤ offsetSize) :
    dword (initArea pcb sp start ret m) (sp + switchToSize + o) =
      ((frameStores pcb start).reverse.lookup o).getD (dword m (sp + switchToSize + o)) := by
  rw [← dword_storeAll m (fun w hw => (frameStores_slots pcb start w hw).1) ho]
  have hapart := hf.apart
  unfold switchToSize offsetSize at *
  exact dword_congr fun k hlo hhi =>
    (storeAll_pair_apply_of_ne _ _ _ (by omega)).trans (storeAll_pair_apply_of_ne _ _ _ (by omega))

/-- The frame of a new process holds the registers it starts with. -/
theorem lookup_frameStores (pcb : Nat) (start : Start) : ∀ q ∈ frameRegs,
    (frameStores pcb start).reverse.lookup q.2 = some ((start.context pcb).reg q.1) := by
  unfold frameRegs
  simp only [List.forall_mem_cons]
  and_intros
  all_goals first | rfl | exact fun _ hq => absurd hq List.not_mem_nil

/-- A new process has its first context behind its pcb. -/
theorem kept_initArea {pcb sp : Nat} (hf : Fits pcb sp) (start : Start) (ret : Word) (m : Store) :
    Kept (initArea pcb sp start ret m) pcb sp (start.context pcb) := by
  have hframe := fun o ho hin => dword_initArea_frame (o := o) hf start ret m ho hin
  refine ⟨?_, (dword_initArea_pcb ..).2, ?_, ?_, ?_⟩
  · rw [(dword_initArea_pcb ..).1, BitVec.toNat_ofNat]
    have hlt := hf.sp_lt
    unfold switchToSize offsetSize at hlt
    omega
  · intro q hq
    have hslot := slots_frameRegs.inside q (List.mem_cons_of_mem _ hq)
    rw [hframe q.2 hslot.1 hslot.2, lookup_frameStores pcb start q hq]
    rfl
  · exact (hframe offsetRegSepc (by decide) (by decide)).trans rfl
  · exact (hframe offsetRegSstatus (by decide) (by decide)).trans rfl

/-- A register that `switch_to` loads is read at its offset. -/
theorem parkedAt_eq (m : Store) (sp : Nat) {q : Reg × Nat} (hq : q ∈ calleeRegs) :
    parkedAt m sp q.1 = dword m (sp + q.2) := by
  have hlookup : ∀ q ∈ calleeRegs, calleeRegs.lookup q.1 = some q.2 := by decide
  unfold parkedAt
  rw [hlookup q hq]

/-- The processes with a new one. -/
def Processes.add (a : Processes η) (pcb sp : Nat) (c : Context) (reg : Reg → Word) : Processes η :=
  { a with
    context := Function.update a.context pcb c
    parked := Function.update a.parked pcb reg
    stack := Function.update a.stack pcb (some sp) }

/-- A process created in bytes of its own leaves the others alone. -/
theorem Agrees.create (hA : Agrees a s) {pcb : Nat} {start : Start} {ret : Word}
    (hnone : ∀ h, a.cur h ≠ pcb) (hf : Fits pcb sp) (hsie : start.status.getLsbD bitSie = false)
    (hapart : ∀ q sq, q ≠ pcb → a.stack q = some sq → ∀ b, InArea q sq b → ¬InArea pcb sp b) :
    Agrees (a.add pcb sp (start.context pcb) (parkedAt (initArea pcb sp start ret s.mem) sp))
      (s.with h (s.hart h) (initArea pcb sp start ret s.mem) s.lock) := by
  have hkept := kept_initArea hf start ret s.mem
  set m := initArea pcb sp start ret s.mem with hm
  set a' := a.add pcb sp (start.context pcb) (parkedAt m sp) with ha'
  have hframe : AreasKept { a with stack := Function.update a.stack pcb none } s.mem m := by
    intro q sq hq b hb
    have hne : q ≠ pcb := by
      rintro rfl
      simp only [Function.update_self] at hq
      cases hq
    simp only [Function.update_of_ne hne] at hq
    exact initArea_apply_of_not_mem start ret s.mem (hapart q sq hne hq b hb)
  have hharts : (s.with h (s.hart h) m s.lock).hart = s.hart := Function.update_eq_self ..
  -- a process is the new one, or it is as it was
  have hcase : ∀ q sq, a'.stack q = some sq → (q = pcb ∧ sq = sp) ∨ (q ≠ pcb ∧ a.stack q = some sq ∧
      ∀ b, InArea q sq b → m b = s.mem b) := by
    intro q sq hq
    change Function.update a.stack pcb (some sp) q = some sq at hq
    by_cases hqp : q = pcb
    · rw [hqp, Function.update_self, Option.some.injEq] at hq
      exact .inl ⟨hqp, hq.symm⟩
    · rw [Function.update_of_ne hqp] at hq
      exact .inr ⟨hqp, hq, hframe q sq ((Function.update_of_ne hqp ..).trans hq)⟩
  have hcontext : ∀ q, q ≠ pcb → a'.context q = a.context q := fun q hne => Function.update_of_ne hne ..
  have hcontext' : a'.context pcb = start.context pcb := Function.update_self ..
  have hpcb : (BitVec.ofNat 64 pcb).toNat = pcb := by
    have hlt := hf.pcb_lt
    rw [BitVec.toNat_ofNat]
    omega
  refine ⟨?_, ?_, ?_, ?_, ?_, ?_, ?_, hA.alone, ?_, ?_, ?_⟩
  · intro q sq hq
    rcases hcase q sq hq with ⟨rfl, rfl⟩ | ⟨_, hq, _⟩
    · exact hf
    · exact hA.fits q sq hq
  · intro q sq hq
    rcases hcase q sq hq with ⟨rfl, rfl⟩ | ⟨_, hq, hsame⟩
    · exact hkept.kernelSp
    · have hword := dword_pcb (o := 0) hsame (by omega)
      rw [Nat.add_zero] at hword
      change (dword m q).toNat = sq
      rw [hword]
      exact hA.kernelSp q sq hq
  · intro q r sq sr hne hq hr b hb hb'
    rcases hcase q sq hq with ⟨hqp, hsq⟩ | ⟨hnq, hq', _⟩
    · rcases hcase r sr hr with ⟨hrp, _⟩ | ⟨hnr, hr', _⟩
      · exact hne (hqp.trans hrp.symm)
      · rw [hqp, hsq] at hb
        exact hapart r sr hnr hr' b hb' hb
    · rcases hcase r sr hr with ⟨hrp, hsr⟩ | ⟨_, hr', _⟩
      · rw [hrp, hsr] at hb'
        exact hapart q sq hnq hq' b hb hb'
      · exact hA.apart q r sq sr hne hq' hr' b hb hb'
  · intro q sq hq
    rcases hcase q sq hq with ⟨rfl, rfl⟩ | ⟨hne, hq, _⟩
    · rw [hcontext']
      exact hpcb
    · rw [hcontext q hne]
      exact hA.tp q sq hq
  · intro q sq hq
    rcases hcase q sq hq with ⟨rfl, rfl⟩ | ⟨hne, hq, _⟩
    · rw [hcontext']
      exact hsie
    · rw [hcontext q hne]
      exact hA.sie q sq hq
  · intro h'
    obtain ⟨sq, hq⟩ := hA.here h'
    exact ⟨sq, (Function.update_of_ne (hnone h') ..).trans hq⟩
  · intro h'
    rw [hharts]
    exact hA.hartTp h'
  · intro h' hprog
    rw [hharts] at hprog ⊢
    rw [show a'.cur = a.cur from rfl, hcontext _ (hnone h')]
    exact hA.shown h' hprog
  · intro q sq hq hstage
    rw [hharts] at hstage
    rcases hcase q sq hq with ⟨rfl, rfl⟩ | ⟨hne, hq, hsame⟩
    · rw [hcontext']
      exact hkept
    · rw [hcontext q hne]
      exact (hA.kept q sq hq hstage).congr hsame
  · intro q sq hq hno
    rcases hcase q sq hq with ⟨rfl, rfl⟩ | ⟨hne, hq, hsame⟩
    · refine ⟨hkept.kernelSp, fun r hr => ?_⟩
      have hown : a'.parked q = parkedAt m sq := Function.update_self ..
      rw [hown, parkedAt_eq m sq hr]
      rfl
    · have hpark : a'.parked q = a.parked q := Function.update_of_ne hne ..
      rw [hpark]
      exact (hA.parked q sq hq hno).congr hsame

/-! ### Switching -/

/-- The registers `switch_to` keeps lie below the frame. -/
theorem Kept.below {m m' : Store} {c : Context} (hk : Kept m p sp c) (hf : Fits p sp)
    (h : ∀ b, ¬(sp ≤ b ∧ b < sp + switchToSize) → m' b = m b) : Kept m' p sp c := by
  have hapart := hf.apart
  have hframe : ∀ o, dword m' (sp + switchToSize + o) = dword m (sp + switchToSize + o) :=
    fun o => dword_congr fun b hlo _ => h b (by omega)
  have hpcb : ∀ o, o + 8 ≤ 16 → dword m' (p + o) = dword m (p + o) := fun o ho =>
    dword_congr fun b hlo hhi => h b (by unfold switchToSize offsetSize at *; omega)
  refine ⟨?_, (hpcb _ (by decide)).trans hk.userSp, fun q hq => ?_, ?_, ?_⟩
  · have hzero := hpcb 0 (by omega)
    rw [Nat.add_zero] at hzero
    rw [hzero]
    exact hk.kernelSp
  · exact (hframe _).trans (hk.regs q hq)
  · exact (hframe _).trans hk.sepc
  · exact (hframe _).trans hk.sstatus

/-- Only the registers that `switch_to` stores are parked. -/
theorem Parked.of_eq {m : Store} {reg reg' : Reg → Word} (hk : Parked m p sp reg)
    (h : ∀ q ∈ calleeRegs, reg q.1 = reg' q.1) : Parked m p sp reg' :=
  ⟨hk.kernelSp, fun q hq => (hk.regs q hq).trans (h q hq)⟩

/-- `switch_to` stores none of its arguments. -/
theorem ne_of_mem_calleeRegs {q : Reg × Nat} (hq : q ∈ calleeRegs) :
    q.1 ≠ .zero ∧ q.1 ≠ .a0 ∧ q.1 ≠ .a1 := by
  revert q
  decide

/-- The processes behind a switch. -/
def Processes.switch (a : Processes η) (h : η) (next : Nat) (reg : Reg → Word) : Processes η :=
  { a with
    parked := Function.update a.parked (a.cur h) reg
    cur := Function.update a.cur h next }

/-- **A switch.**  The process comes back to where it called `switch_to`, with the registers that a
call leaves alone. -/
theorem Agrees.switch (hA : Agrees a s) {next nextSp : Nat} (hstage : (s.hart h).stage ≠ .program)
    (hnext : a.stack next = some nextSp) (hfree : ∀ h', h' ≠ h → a.cur h' ≠ next) :
    ∃ x m, execute switchTo ((s.hart h).calling next) s.mem = .ok (x, m) ∧
      x.stage = (s.hart h).stage ∧
      (∀ q ∈ calleeRegs, x.reg q.1 =
        (if next = a.cur h then (s.hart h).reg else a.parked next) q.1) ∧
      ∀ pc, Agrees (a.switch h next (s.hart h).reg) (s.with h { x with pc } m s.lock) := by
  obtain ⟨sp, hstack⟩ := hA.here h
  have hf := hA.fits _ _ hstack
  have hf' := hA.fits _ _ hnext
  have hkept := hA.kept_here hstack hstage
  have hnextNat : (BitVec.ofNat 64 next).toNat = next := by
    have hlt := hf'.pcb_lt
    rw [BitVec.toNat_ofNat]
    omega
  obtain ⟨m, hpark, hframe, hrest⟩ := switchTo_spec (s := ((s.hart h).calling next).cpu s.mem) hf hf'
    (hA.hartTp h) hnextNat (hA.kernelSp _ _ hstack)
  have hpark' : Parked m (a.cur h) sp (s.hart h).reg := hpark.of_eq fun q hq => by
    obtain ⟨hz, ha0, ha1⟩ := ne_of_mem_calleeRegs hq
    rw [get_cpu _ _ hz]
    exact (Function.update_of_ne ha1 ..).trans (Function.update_of_ne ha0 ..)
  have hout : ∀ q sq, q ≠ a.cur h → a.stack q = some sq → ∀ b, InArea q sq b → m b = s.mem b := by
    intro q sq hne hq b hb
    refine hframe b fun hin => hA.apart _ _ _ _ hne hq hstack b hb (.inr ?_)
    unfold switchToSize offsetSize at *
    omega
  have hunpark : Parked m next nextSp (if next = a.cur h then (s.hart h).reg else a.parked next) := by
    by_cases heq : next = a.cur h
    · rw [if_pos heq]
      rw [heq] at hnext ⊢
      rw [hstack] at hnext
      cases hnext
      exact hpark'
    · rw [if_neg heq]
      refine (hA.parked _ _ hnext fun h' => ?_).congr (hout _ _ heq hnext)
      by_cases hh : h' = h
      · rw [hh]
        exact Ne.symm heq
      · exact hfree h' hh
  obtain ⟨s', hrun, hregs, htp, _, hmem⟩ := hrest _ hunpark
  have hcur : ∀ h', h' ≠ h → (a.switch h next (s.hart h).reg).cur h' = a.cur h' :=
    fun h' hne => Function.update_of_ne hne ..
  have hcur' : (a.switch h next (s.hart h).reg).cur h = next := Function.update_self ..
  refine ⟨_, _, execute_eq hrun, rfl, fun q hq => ?_, fun pc => ?_⟩
  · exact (get_of_ne s' (ne_of_mem_calleeRegs hq).1).symm.trans (hregs q hq)
  · rw [hmem]
    refine ⟨hA.fits, ?_, hA.apart, hA.tp, hA.sie, ?_, ?_, ?_, ?_, ?_, ?_⟩
    · intro q sq hq
      by_cases hqp : q = a.cur h
      · subst hqp
        rw [show (a.switch h next (s.hart h).reg).stack = a.stack from rfl, hstack] at hq
        cases hq
        exact hpark'.kernelSp
      · have hword := dword_pcb (o := 0) (hout q sq hqp hq) (by omega)
        rw [Nat.add_zero] at hword
        change (dword m q).toNat = sq
        rw [hword]
        exact hA.kernelSp q sq hq
    · intro h'
      by_cases hh : h' = h
      · rw [hh, hcur']
        exact ⟨nextSp, hnext⟩
      · rw [hcur h' hh]
        exact hA.here h'
    · intro h'
      by_cases hh : h' = h
      · rw [hh, hcur', hart_with]
        exact (congrArg BitVec.toNat htp).trans hnextNat
      · rw [hcur h' hh, hart_with_of_ne hh]
        exact hA.hartTp h'
    · intro h₁ h₂ heq
      by_cases hh₁ : h₁ = h
      · by_cases hh₂ : h₂ = h
        · rw [hh₁, hh₂]
        · rw [hh₁, hcur', hcur h₂ hh₂] at heq
          exact absurd heq.symm (hfree h₂ hh₂)
      · by_cases hh₂ : h₂ = h
        · rw [hh₂, hcur', hcur h₁ hh₁] at heq
          exact absurd heq (hfree h₁ hh₁)
        · rw [hcur h₁ hh₁, hcur h₂ hh₂] at heq
          exact hA.alone h₁ h₂ heq
    · intro h' hprog
      by_cases hh : h' = h
      · rw [hh, hart_with] at hprog
        exact absurd hprog hstage
      · rw [hart_with_of_ne hh] at hprog ⊢
        rw [hcur h' hh]
        exact hA.shown h' hprog
    · intro q sq hq hno
      by_cases hqp : q = a.cur h
      · subst hqp
        rw [show (a.switch h next (s.hart h).reg).stack = a.stack from rfl, hstack] at hq
        cases hq
        exact hkept.below hf hframe
      · refine (hA.kept q sq hq fun h' hh' => ?_).congr (hout q sq hqp hq)
        have hne : h' ≠ h := by
          rintro rfl
          exact hqp hh'.symm
        have hown := hno h' ((hcur h' hne).trans hh')
        rwa [hart_with_of_ne hne] at hown
    · intro q sq hq hno
      by_cases hqp : q = a.cur h
      · subst hqp
        rw [show (a.switch h next (s.hart h).reg).stack = a.stack from rfl, hstack] at hq
        cases hq
        have hown : (a.switch h next (s.hart h).reg).parked (a.cur h) = (s.hart h).reg :=
          Function.update_self ..
        rw [hown]
        exact hpark'
      · have hown : (a.switch h next (s.hart h).reg).parked q = a.parked q :=
          Function.update_of_ne hqp ..
        rw [hown]
        refine (hA.parked q sq hq fun h' hh' => ?_).congr (hout q sq hqp hq)
        have hne : h' ≠ h := by
          rintro rfl
          exact hqp hh'.symm
        exact hno h' ((hcur h' hne).trans hh')

/-! ## Every event -/

/-- A step of a hart in the right stage, with what becomes of the processes. -/
theorem stepBoth_eq {e : Event η} {x : Hart} {m : Store} {l : LockStatus}
    (hstage : (s.hart e.hart).stage = e.stage)
    (hact : act (s.hart e.hart) s.mem s.lock e = .ok (x, m, l)) :
    stepBoth e (a, s) = .ok (note e s a, s.with e.hart x m l) := by
  unfold stepBoth step
  rw [if_neg (not_not_intro hstage), hact]
  rfl

/-- A hart on its way through the kernel runs no program. -/
theorem Hart.ne_program {x : Hart} {st : Stage} (hstage : x.stage = st) (hne : st ≠ .program) :
    x.stage ≠ .program := by
  rw [hstage]
  exact hne

/-- **One event.**  It can happen, and the machine holds the processes as before. -/
theorem step_agrees {e : Event η} (hA : Agrees a s) (hal : Allowed (a, s) e) :
    ∃ y, stepBoth e (a, s) = .ok y ∧ Agrees y.1 y.2 := by
  obtain ⟨hstage, hal⟩ := hal
  cases e with
  | compute h reg pc mem =>
    exact ⟨_, stepBoth_eq hstage rfl, hA.compute pc hstage hal.1 hal.2⟩
  | trap h cause tval =>
    obtain ⟨x, m, hexec, hA'⟩ := hA.trap (h := h) hstage cause tval
    refine ⟨_, stepBoth_eq hstage ?_, hA'⟩
    change (execute saveContext ((s.hart h).trapped cause tval) s.mem >>= _) = _
    rw [hexec]
    rfl
  | swap h reg =>
    have hne : (s.hart h).stage ≠ .program :=
      Hart.ne_program hstage (by decide : Stage.entered ≠ .program)
    have hne' : (if s.lock = .unlocked then Stage.kernel else .entered) ≠ .program := by
      cases s.lock <;> decide
    exact ⟨_, stepBoth_eq hstage rfl, hA.kernel .locked hne hne' hal fun _ _ _ _ _ => rfl⟩
  | kernel h reg mem =>
    have hne : (s.hart h).stage ≠ .program :=
      Hart.ne_program hstage (by decide : Stage.kernel ≠ .program)
    exact ⟨_, stepBoth_eq hstage rfl, hA.kernel s.lock hne hne hal.1 hal.2⟩
  | advance h =>
    obtain ⟨sp, hstack⟩ := hA.here h
    have hne : (s.hart h).stage ≠ .program :=
      Hart.ne_program hstage (by decide : Stage.kernel ≠ .program)
    have hkept := hA.kept_here hstack hne
    have hA' := hA.storeFrame hne hstack (by decide) _
      (hkept.setPc (hA.fits _ _ hstack) ((a.context (a.cur h)).pc + 4)) rfl rfl
    refine ⟨_, stepBoth_eq hstage ?_, hA'⟩
    simp only [act, Event.hart, hA.frameAt_eq hstack, hkept.sepc]
  | result h v =>
    obtain ⟨sp, hstack⟩ := hA.here h
    have hne : (s.hart h).stage ≠ .program :=
      Hart.ne_program hstage (by decide : Stage.kernel ≠ .program)
    have hkept := hA.kept_here hstack hne
    have hA' := hA.storeFrame hne hstack (o := offsetRegA0) (by decide) v
      (hkept.setA0 (hA.fits _ _ hstack) v) (Function.update_of_ne (by decide : Reg.tp ≠ .a0) v _) rfl
    refine ⟨_, stepBoth_eq hstage ?_, hA'⟩
    simp only [act, Event.hart, hA.frameAt_eq hstack]
  | create h pcb top start ret =>
    obtain ⟨hnone, _, hf, hsie, hapart⟩ := hal
    exact ⟨_, stepBoth_eq hstage rfl, hA.create hnone hf hsie hapart⟩
  | switch h next =>
    obtain ⟨⟨nextSp, hnext⟩, hfree⟩ := hal
    have hne : (s.hart h).stage ≠ .program :=
      Hart.ne_program hstage (by decide : Stage.kernel ≠ .program)
    obtain ⟨x, m, hexec, _, _, hA'⟩ := hA.switch hne hnext hfree
    refine ⟨_, stepBoth_eq hstage ?_, hA' (x.reg .ra)⟩
    change (execute switchTo ((s.hart h).calling next) s.mem >>= _) = _
    rw [hexec]
    rfl
  | leave h =>
    have hne : (s.hart h).stage ≠ .program :=
      Hart.ne_program hstage (by decide : Stage.kernel ≠ .program)
    exact ⟨_, stepBoth_eq hstage rfl,
      hA.kernel .unlocked hne (by decide) rfl fun _ _ _ _ _ => rfl⟩
  | resume h =>
    obtain ⟨x, m, hexec, hA'⟩ := hA.resume (h := h) hstage
    refine ⟨_, stepBoth_eq hstage ?_, hA'⟩
    change (execute restoreContext (s.hart h) s.mem >>= _) = _
    rw [hexec]
    rfl

end Events

/-! ## Runs -/

section Runs

variable {x y : Processes η × Machine η} {es : List (Event η)}

/-- What is allowed at every step of the run. -/
abbrev AllowedAll (es : List (Event η)) (x : Processes η × Machine η) : Prop :=
  AllSteps stepBoth Allowed es x

/-- Processes and machine agree in every state of a run. -/
theorem run_agrees (hA : Agrees x.1 x.2) (hes : AllowedAll es x)
    (hrun : Outcome.run stepBoth es x = .ok y) : Agrees y.1 y.2 := by
  refine run_invariant (I := fun x => Agrees x.1 x.2) (fun x e y hA hal hstep => ?_) es x y hA hes hrun
  obtain ⟨y', hy', hA'⟩ := step_agrees hA hal
  rw [hy'] at hstep
  cases hstep
  exact hA'

/-- No step of a run fails. -/
theorem run_goes_on (hA : Agrees x.1 x.2) (hes : AllowedAll es x) :
    ∃ y, Outcome.run stepBoth es x = .ok y := by
  refine run_returns (J := fun es x => Agrees x.1 x.2 ∧ AllowedAll es x) (fun x e es hJ => ?_) es x
    ⟨hA, hes⟩
  obtain ⟨y, hy, hA'⟩ := step_agrees hJ.1 hJ.2.head
  exact ⟨y, hy, hA', hJ.2.tail hy⟩

/-! ### The start -/

def Hart.context (x : Hart) : Context := ⟨x.reg, x.pc, trapStatus x.mode (x.csr .sstatus)⟩

/-- The harts at the end of `main`: each has an idle process of its own, whose PCB knows its kernel
stack, and there are no other processes. -/
structure Booted (a : Processes η) (s : Machine η) : Prop where
  here : ∀ h, ∃ sp, a.stack (a.cur h) = some sp
  idle : ∀ p sp, a.stack p = some sp → ∃ h, a.cur h = p
  alone : ∀ h h', a.cur h = a.cur h' → h = h'
  fits : ∀ p sp, a.stack p = some sp → Fits p sp
  apart : ∀ p q sp sq, p ≠ q → a.stack p = some sp → a.stack q = some sq →
    ∀ b, InArea p sp b → ¬InArea q sq b
  kernelSp : ∀ p sp, a.stack p = some sp → (dword s.mem p).toNat = sp
  hartTp : ∀ h, ((s.hart h).reg .tp).toNat = a.cur h
  context : ∀ h, a.context (a.cur h) = (s.hart h).context
  stage : ∀ h, (s.hart h).stage = .program
  lock : s.lock = .unlocked

omit [DecidableEq η] in
/-- Processes and machine agree at the start. -/
theorem Booted.agrees {a : Processes η} {s : Machine η} (hb : Booted a s) : Agrees a s where
  fits := hb.fits
  kernelSp := hb.kernelSp
  apart := hb.apart
  tp p sp hp := by
    obtain ⟨h, rfl⟩ := hb.idle p sp hp
    rw [hb.context]
    exact hb.hartTp h
  sie p sp hp := by
    obtain ⟨h, rfl⟩ := hb.idle p sp hp
    rw [hb.context]
    exact trapStatus_sie ..
  here := hb.here
  hartTp := hb.hartTp
  alone := hb.alone
  shown h _ := by
    rw [hb.context]
    exact ⟨fun _ _ => rfl, rfl, rfl⟩
  kept p sp hp hno := by
    obtain ⟨h, rfl⟩ := hb.idle p sp hp
    exact absurd (hb.stage h) (hno h rfl)
  parked p sp hp hno := by
    obtain ⟨h, rfl⟩ := hb.idle p sp hp
    exact absurd rfl (hno h)

/-- **Registers of one's own.**  Whatever the order in which any number of harts compute, trap, wait
for the lock, run the kernel, create processes, switch and return: no step of `entry.S` fails, and
a hart that runs a program shows it its own context. -/
theorem contexts_kept (hb : Booted x.1 x.2) (hes : AllowedAll es x) :
    ∃ y, Outcome.run stepBoth es x = .ok y ∧ ∀ h, (y.2.hart h).stage = .program →
      ((y.2.hart h).reg .tp).toNat = y.1.cur h ∧ (y.2.hart h).Shows (y.1.context (y.1.cur h)) := by
  obtain ⟨y, hrun⟩ := run_goes_on hb.agrees hes
  have hA := run_agrees hb.agrees hes hrun
  exact ⟨y, hrun, fun h hprog => ⟨hA.hartTp h, hA.shown h hprog⟩⟩

/-- Two harts with their idle processes. -/
def pairPcb (h : Fin 2) : Nat := if h = 0 then 4096 else 8192

def pairStack (p : Nat) : Option Nat :=
  if p = 4096 then some 16384 else if p = 8192 then some 32768 else none

def pairHart (h : Fin 2) : Hart :=
  ⟨fun r => if r = .tp then BitVec.ofNat 64 (pairPcb h) else 7, fun _ => 0, 80, .supervisor, .program⟩

def pair : Processes (Fin 2) × Machine (Fin 2) :=
  (⟨fun p => (pairHart (if p = 4096 then 0 else 1)).context, fun _ _ => 0, pairStack, pairPcb⟩,
    ⟨store 8 (store 8 (fun _ => 0) 4096 16384) 8192 32768, .unlocked, pairHart⟩)

/-- The stacks of the two idle processes. -/
theorem pairStack_cases {p sp : Nat} (h : pairStack p = some sp) :
    (p = 4096 ∧ sp = 16384) ∨ (p = 8192 ∧ sp = 32768) := by
  unfold pairStack at h
  grind

/-- The two harts are a start. -/
theorem pair_booted : Booted pair.1 pair.2 where
  here h := by
    fin_cases h
    · exact ⟨16384, rfl⟩
    · exact ⟨32768, rfl⟩
  idle p sp hp := by
    rcases pairStack_cases hp with ⟨rfl, rfl⟩ | ⟨rfl, rfl⟩
    · exact ⟨0, rfl⟩
    · exact ⟨1, rfl⟩
  alone := by decide
  fits p sp hp := by
    rcases pairStack_cases hp with ⟨rfl, rfl⟩ | ⟨rfl, rfl⟩ <;>
      exact ⟨by decide, by decide, by decide, by decide, by decide⟩
  apart p q sp sq hne hp hq b := by
    unfold InArea switchToSize offsetSize
    rcases pairStack_cases hp with ⟨rfl, rfl⟩ | ⟨rfl, rfl⟩ <;>
      rcases pairStack_cases hq with ⟨rfl, rfl⟩ | ⟨rfl, rfl⟩ <;> omega
  kernelSp p sp hp := by
    rcases pairStack_cases hp with ⟨rfl, rfl⟩ | ⟨rfl, rfl⟩ <;> decide +kernel
  hartTp := by decide
  context h := by fin_cases h <;> rfl
  stage _ := rfl
  lock := rfl

/-- The events of the way into the kernel and out of it. -/
def Event.Passes (x : Processes η × Machine η) (e : Event η) : Prop :=
  (x.2.hart e.hart).stage = e.stage ∧
  match e with
  | .swap h reg => reg .tp = (x.2.hart h).reg .tp
  | .trap .. | .leave _ | .resume _ => True
  | _ => False

instance (x : Processes η × Machine η) : (e : Event η) → Decidable (e.Passes x)
  | .swap h reg => inferInstanceAs
      (Decidable ((x.2.hart h).stage = .entered ∧ reg .tp = (x.2.hart h).reg .tp))
  | .trap h .. => inferInstanceAs (Decidable ((x.2.hart h).stage = .program ∧ True))
  | .leave h => inferInstanceAs (Decidable ((x.2.hart h).stage = .kernel ∧ True))
  | .resume h => inferInstanceAs (Decidable ((x.2.hart h).stage = .leaving ∧ True))
  | .compute .. | .kernel .. | .advance _ | .result .. | .create .. | .switch .. =>
    isFalse fun h => h.2

omit [DecidableEq η] in
/-- What only passes through the kernel is allowed. -/
theorem Event.Passes.allowed {x : Processes η × Machine η} {e : Event η} (h : e.Passes x) :
    Allowed x e := by
  obtain ⟨hstage, he⟩ := h
  refine ⟨hstage, ?_⟩
  cases e <;> first | exact he | exact he.elim

/-- In and out again. -/
def passing : List (Event (Fin 2)) := [.trap 0 7 0, .swap 0 fun _ => 4096, .leave 0, .resume 0]

/-- The way in and out again only passes. -/
theorem passing_passes : AllSteps stepBoth (fun x e => Event.Passes x e) passing pair := by
  decide +kernel

/-- On the way in and out again no instruction fails, and the registers are back. -/
theorem contexts_kept_pair : ∃ y, Outcome.run stepBoth passing pair = .ok y ∧
    ∀ h, (y.2.hart h).stage = .program →
      ((y.2.hart h).reg .tp).toNat = y.1.cur h ∧ (y.2.hart h).Shows (y.1.context (y.1.cur h)) :=
  contexts_kept pair_booted (passing_passes.mono (fun _ _ h => Event.Passes.allowed h) _ _)

/-! ### Interruptions -/

/-- The events that are about the context of a process: its own computing, its system calls and
its creation. -/
def Event.Touches (p : Nat) (x : Processes η × Machine η) : Event η → Prop
  | .compute h .. | .advance h | .result h _ => x.1.cur h = p
  | .create _ pcb .. => pcb = p
  | _ => False

/-- What is not about a process leaves its context. -/
theorem note_context {p : Nat} {a : Processes η} {s : Machine η} {e : Event η}
    (h : ¬e.Touches p (a, s)) : (note e s a).context p = a.context p := by
  have hcur : ∀ {h' : η} {c : Context}, a.cur h' ≠ p →
      Function.update a.context (a.cur h') c p = a.context p :=
    fun hne => Function.update_of_ne (Ne.symm hne) ..
  cases e with
  | compute h' => exact hcur h
  | advance h' => exact hcur h
  | result h' => exact hcur h
  | create h' pcb => exact Function.update_of_ne (Ne.symm h) ..
  | _ => rfl

/-- A step of both is a step of the machine. -/
theorem stepBoth_ok {e : Event η} (h : stepBoth e x = .ok y) :
    step e x.2 = .ok y.2 ∧ y.1 = note e x.2 x.1 := by
  unfold stepBoth at h
  cases hs : step e x.2 with
  | ok s =>
    rw [hs] at h
    cases h
    exact ⟨rfl, rfl⟩
  | error err =>
    rw [hs] at h
    cases h

/-- A run that is not about a process leaves its context. -/
theorem run_context {p : Nat} (hes : AllSteps stepBoth (fun x e => ¬e.Touches p x) es x)
    (hrun : Outcome.run stepBoth es x = .ok y) : y.1.context p = x.1.context p := by
  refine run_invariant (I := fun z => z.1.context p = x.1.context p)
    (fun z e w hz hno hstep => ?_) es x y rfl hes hrun
  obtain ⟨_, hnote⟩ := stepBoth_ok hstep
  rw [hnote, note_context hno]
  exact hz

omit [DecidableEq η] in
/-- Two harts that show the same context look alike to a program. -/
theorem Hart.Shows.same {v w : Hart} {c : Context} (hv : v.Shows c) (hw : w.Shows c) :
    (∀ r, r ≠ .zero → w.reg r = v.reg r) ∧ w.pc = v.pc ∧ w.mode = v.mode ∧
      (w.csr .sstatus).getLsbD bitSie = (v.csr .sstatus).getLsbD bitSie := by
  have hst := hw.status.trans hv.status.symm
  refine ⟨fun r hr => (hw.reg r hr).trans (hv.reg r hr).symm, hw.pc.trans hv.pc.symm, ?_, ?_⟩
  · have hspp := congrArg (·.getLsbD bitSpp) hst
    simp only [trapStatus, getLsbD_setBit _ (by decide : bitSpp < 64), if_pos] at hspp
    cases hmv : v.mode <;> cases hmw : w.mode <;> rw [hmv, hmw] at hspp <;> simp_all
  · have hspie := congrArg (·.getLsbD bitSpie) hst
    simpa only [trapStatus, getLsbD_setBit _ (by decide : bitSpp < 64),
      getLsbD_setBit _ (by decide : bitSie < 64), getLsbD_setBit _ (by decide : bitSpie < 64),
      if_neg (by decide : bitSpie ≠ bitSpp), if_neg (by decide : bitSpie ≠ bitSie), if_pos] using hspie

omit [DecidableEq η] in
/-- What only passes is about no context. -/
theorem Event.Passes.not_touches {p : Nat} {x : Processes η × Machine η} {e : Event η}
    (h : e.Passes x) : ¬e.Touches p x := by
  cases e <;> first | exact h.2.elim | exact not_false

/-- **Interruptions are not noticed.**  A program finds itself where it was, with all its
registers, in the same mode and with interrupts on or off as before: whatever the other programs,
the kernel and the harts have done since, and on whichever hart it goes on. -/
theorem interrupted_resumes {z : Processes η × Machine η} {fs : List (Event η)} {h h' : η}
    (hb : Booted x.1 x.2) (hes : AllowedAll es x) (hrun : Outcome.run stepBoth es x = .ok y)
    (hfs : AllowedAll fs y) (hrun' : Outcome.run stepBoth fs y = .ok z)
    (hprog : (y.2.hart h).stage = .program) (hprog' : (z.2.hart h').stage = .program)
    (hcur : z.1.cur h' = y.1.cur h)
    (hno : AllSteps stepBoth (fun w e => ¬e.Touches (y.1.cur h) w) fs y) :
    (∀ r, r ≠ .zero → (z.2.hart h').reg r = (y.2.hart h).reg r) ∧
      (z.2.hart h').pc = (y.2.hart h).pc ∧ (z.2.hart h').mode = (y.2.hart h).mode ∧
      ((z.2.hart h').csr .sstatus).getLsbD bitSie = ((y.2.hart h).csr .sstatus).getLsbD bitSie := by
  have hA := run_agrees hb.agrees hes hrun
  have hA' := run_agrees hA hfs hrun'
  have hshown' := hA'.shown h' hprog'
  rw [hcur, run_context hno hrun'] at hshown'
  exact (hA.shown h hprog).same hshown'

/-- Behind the way in and out the program finds itself as before. -/
theorem interrupted_resumes_pair : ∃ z, Outcome.run stepBoth passing pair = .ok z ∧
    (∀ r, r ≠ .zero → (z.2.hart 0).reg r = (pair.2.hart 0).reg r) ∧
      (z.2.hart 0).pc = (pair.2.hart 0).pc ∧ (z.2.hart 0).mode = (pair.2.hart 0).mode ∧
      ((z.2.hart 0).csr .sstatus).getLsbD bitSie = ((pair.2.hart 0).csr .sstatus).getLsbD bitSie := by
  obtain ⟨z, hz, hprog, hcur⟩ := exists_of_returns (x := Outcome.run stepBoth passing pair)
    (P := fun z => (z.2.hart 0).stage = .program ∧ z.1.cur 0 = pair.1.cur 0) (by decide +kernel)
  have hnone : AllowedAll [] pair := trivial
  refine ⟨z, hz, interrupted_resumes pair_booted hnone rfl
    (passing_passes.mono (fun _ _ h => Event.Passes.allowed h) _ _) hz rfl hprog hcur
    (passing_passes.mono (fun _ _ h => Event.Passes.not_touches h) _ _)⟩

/-! ### Calls of `switch_to` -/

/-- The events that make a process run in the kernel again. -/
def Event.Renews (p : Nat) : Event η → Prop
  | .switch _ next => next = p
  | .create _ pcb .. => pcb = p
  | _ => False

/-- What does not make a parked process run leaves its registers in `switch_to`. -/
theorem note_parked {p : Nat} {a : Processes η} {s : Machine η} {e : Event η}
    (hcur : ∀ h, a.cur h ≠ p) (h : ¬e.Renews p) :
    (∀ h, (note e s a).cur h ≠ p) ∧ (note e s a).parked p = a.parked p := by
  cases e with
  | create h' pcb => exact ⟨hcur, Function.update_of_ne (Ne.symm h) ..⟩
  | switch h' next =>
    refine ⟨fun h'' => ?_, Function.update_of_ne (Ne.symm (hcur h')) ..⟩
    change Function.update a.cur h' next h'' ≠ p
    by_cases hh : h'' = h'
    · rw [hh, Function.update_self]
      exact h
    · rw [Function.update_of_ne hh]
      exact hcur h''
  | _ => exact ⟨hcur, rfl⟩

/-- A process that is parked stays so as long as nobody switches to it or creates it anew. -/
theorem run_parked {p : Nat} (hcur : ∀ h, x.1.cur h ≠ p) (hes : ∀ e ∈ es, ¬e.Renews p)
    (hrun : Outcome.run stepBoth es x = .ok y) :
    (∀ h, y.1.cur h ≠ p) ∧ y.1.parked p = x.1.parked p := by
  induction es generalizing x with
  | nil =>
    cases hrun
    exact ⟨hcur, rfl⟩
  | cons e es ih =>
    obtain ⟨z, hstep, hrest⟩ := run_cons hrun
    obtain ⟨_, hnote⟩ := stepBoth_ok hstep
    obtain ⟨hcur', hpark⟩ := note_parked (s := x.2) hcur (hes e List.mem_cons_self)
    rw [← hnote] at hcur' hpark
    obtain ⟨hcur'', hpark'⟩ := ih hcur' (fun e he => hes e (List.mem_cons_of_mem _ he)) hrest
    exact ⟨hcur'', hpark'.trans hpark⟩

/-- What `switch_to` does: one process is parked, the other one has its registers back. -/
theorem switch_stepBoth {h : η} {next : Nat} (hA : Agrees x.1 x.2) (hal : Allowed x (.switch h next))
    (hstep : stepBoth (.switch h next) x = .ok y) :
    y.1 = x.1.switch h next (x.2.hart h).reg ∧ (∀ q ∈ calleeRegs, (y.2.hart h).reg q.1 =
      (if next = x.1.cur h then (x.2.hart h).reg else x.1.parked next) q.1) ∧
        (y.2.hart h).pc = (y.2.hart h).reg .ra := by
  obtain ⟨a, s⟩ := x
  obtain ⟨hstage, ⟨nextSp, hnext⟩, hfree⟩ := hal
  have hne : (s.hart h).stage ≠ .program :=
    Hart.ne_program hstage (by decide : Stage.kernel ≠ .program)
  obtain ⟨x', m, hexec, _, hregs, _⟩ := hA.switch hne hnext hfree
  have hact : act (s.hart h) s.mem s.lock (.switch h next) =
      .ok ({ x' with pc := x'.reg .ra }, m, s.lock) := by
    change (execute switchTo ((s.hart h).calling next) s.mem >>= _) = _
    rw [hexec]
    rfl
  rw [stepBoth_eq hstage hact] at hstep
  cases hstep
  refine ⟨rfl, fun q hq => ?_, ?_⟩
  · change ((s.with h _ m s.lock).hart h).reg q.1 = _
    rw [hart_with]
    exact hregs q hq
  · change ((s.with h _ m s.lock).hart h).pc = ((s.with h _ m s.lock).hart h).reg .ra
    rw [hart_with]

/-- **A call of `switch_to` returns.**  When the process that called it is switched to at last, on
whichever hart, it is behind the call, with the registers a call leaves alone. -/
theorem switch_returns {z w : Processes η × Machine η} {fs : List (Event η)} {h h' : η} {next : Nat}
    (hb : Booted x.1 x.2) (hes : AllowedAll es x) (hrun : Outcome.run stepBoth es x = .ok y)
    (hfs : AllowedAll (.switch h next :: fs) y)
    (hrun' : Outcome.run stepBoth (.switch h next :: fs) y = .ok z)
    (hback : Allowed z (.switch h' (y.1.cur h)))
    (hstep : stepBoth (.switch h' (y.1.cur h)) z = .ok w)
    (hnext : next ≠ y.1.cur h) (hno : ∀ e ∈ fs, ¬e.Renews (y.1.cur h)) :
    (∀ q ∈ calleeRegs, (w.2.hart h').reg q.1 = (y.2.hart h).reg q.1) ∧
      (w.2.hart h').pc = (y.2.hart h).reg .ra := by
  have hA := run_agrees hb.agrees hes hrun
  have hA' := run_agrees hA hfs hrun'
  obtain ⟨v, hv, hrest⟩ := run_cons hrun'
  obtain ⟨hsw, _, _⟩ := switch_stepBoth hA hfs.head hv
  -- behind the first switch no hart has the process
  have hgone : ∀ h'', v.1.cur h'' ≠ y.1.cur h := by
    intro h''
    rw [hsw]
    change Function.update y.1.cur h next h'' ≠ _
    by_cases hh : h'' = h
    · rw [hh, Function.update_self]
      exact hnext
    · rw [Function.update_of_ne hh]
      exact fun heq => hh (hA.alone h'' h heq)
  have hparked : v.1.parked (y.1.cur h) = (y.2.hart h).reg := by
    rw [hsw]
    exact Function.update_self ..
  obtain ⟨hgone', hparked'⟩ := run_parked hgone hno hrest
  obtain ⟨_, hregs, hpc⟩ := switch_stepBoth hA' hback hstep
  rw [if_neg (Ne.symm (hgone' h')), hparked', hparked] at hregs
  exact ⟨hregs, hpc.trans (hregs (.ra, 0) (by decide))⟩

/-- What only passes changes no process. -/
theorem Event.Passes.note {x : Processes η × Machine η} {e : Event η} (h : e.Passes x) :
    note e x.2 x.1 = x.1 := by
  cases e <;> first | exact h.2.elim | rfl

/-- A run that only passes changes no process. -/
theorem run_passes (hes : AllSteps stepBoth (fun x e => Event.Passes x e) es x)
    (hrun : Outcome.run stepBoth es x = .ok y) : y.1 = x.1 := by
  refine run_invariant (I := fun z => z.1 = x.1) (fun z e w hz hpass hstep => ?_) es x y rfl hes hrun
  obtain ⟨_, hnote⟩ := stepBoth_ok hstep
  rw [hnote, hpass.note]
  exact hz

/-- A process is created, switched to, and switches back. -/
def creating : List (Event (Fin 2)) :=
  passing.take 2 ++ [.create 0 65536 131072 (shellStart 4096 8192) 99]

/-- Creating a process inside the kernel is allowed. -/
theorem creating_allowed : AllowedAll creating pair := by
  have hpass : AllSteps stepBoth (fun x e => Event.Passes x e) (passing.take 2) pair := by
    decide +kernel
  obtain ⟨⟨a, s⟩, hy, hstage⟩ := exists_of_returns
    (x := Outcome.run stepBoth (passing.take 2) pair)
    (P := fun y => (y.2.hart 0).stage = .kernel) (by decide +kernel)
  obtain rfl : a = pair.1 := run_passes hpass hy
  refine (hpass.mono (fun _ _ h => Event.Passes.allowed h) _ _).append hy ⟨⟨hstage, ?_⟩, ?_⟩
  · refine ⟨fun h => ?_, by decide, ⟨by decide, by decide, by decide, by decide, by decide⟩,
      by decide, fun q sq _ hq b => ?_⟩
    · exact (by decide : ∀ h, pairPcb h ≠ 65536) h
    · unfold InArea switchToSize offsetSize
      rcases pairStack_cases hq with ⟨rfl, rfl⟩ | ⟨rfl, rfl⟩ <;> omega
  · cases stepBoth (.create 0 65536 131072 (shellStart 4096 8192) 99) (pair.1, s) <;> trivial

/-- A switch to a process that no hart has is allowed. -/
theorem switch_allowed {y : Processes (Fin 2) × Machine (Fin 2)} {next sp : Nat}
    (hstage : (y.2.hart 0).stage = .kernel) (hstack : y.1.stack next = some sp)
    (hcur : y.1.cur 1 ≠ next) : Allowed y (.switch 0 next) := by
  refine ⟨hstage, ⟨sp, hstack⟩, fun h' hne => ?_⟩
  rwa [Fin.eq_one_of_ne_zero h' hne]

/-- The first process gets its registers back when the new one switches to it. -/
theorem switch_returns_pair : ∃ y z w, Outcome.run stepBoth creating pair = .ok y ∧
    Outcome.run stepBoth [.switch 0 65536] y = .ok z ∧ stepBoth (.switch 0 4096) z = .ok w ∧
      (∀ q ∈ calleeRegs, (w.2.hart 0).reg q.1 = (y.2.hart 0).reg q.1) ∧
      (w.2.hart 0).pc = (y.2.hart 0).reg .ra := by
  obtain ⟨y, hy, hystage, hycur, hynew, hyother⟩ := exists_of_returns
    (x := Outcome.run stepBoth creating pair)
    (P := fun y => (y.2.hart 0).stage = .kernel ∧ y.1.cur 0 = 4096 ∧
      y.1.stack 65536 = some 130672 ∧ y.1.cur 1 = 8192) (by decide +kernel)
  obtain ⟨z, hz, hzstage, hzold, hzother⟩ := exists_of_returns
    (x := Outcome.run stepBoth (creating ++ [.switch 0 65536]) pair)
    (P := fun z => (z.2.hart 0).stage = .kernel ∧ z.1.stack 4096 = some 16384 ∧ z.1.cur 1 = 8192)
    (by decide +kernel)
  have hA := run_agrees pair_booted.agrees creating_allowed hy
  have hgo : Allowed y (.switch 0 65536) :=
    switch_allowed hystage hynew (by rw [hyother]; decide)
  have hgoAll : AllowedAll [.switch 0 65536] y := by
    refine ⟨hgo, ?_⟩
    cases stepBoth (.switch 0 65536) y <;> trivial
  rw [run_append_ok hy] at hz
  have hback : Allowed z (.switch 0 4096) :=
    switch_allowed hzstage hzold (by rw [hzother]; decide)
  obtain ⟨w, hw, _⟩ := step_agrees (run_agrees hA hgoAll hz) hback
  rw [← hycur] at hback hw
  have hreturns := switch_returns pair_booted creating_allowed hy hgoAll hz hback hw
    (by rw [hycur]; decide) (fun _ he => absurd he List.not_mem_nil)
  exact ⟨y, z, w, hy, hz, hycur ▸ hw, hreturns⟩

end Runs

end Kernel
