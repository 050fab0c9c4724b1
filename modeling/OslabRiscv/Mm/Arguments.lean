import OslabRiscv.Mm.Loader

/-!
# The arguments of a new process

`do_exec` puts the strings below the pointer array, into the page of the user stack.
One cursor has the address in the kernel, where it writes; the other has the address in
the new process, which is what the pointers hold.
-/

namespace Mm

open LittleEndian Outcome Boot

/-! ## Bytes of the kernel -/

/-- The byte at an address of the kernel. -/
def kernByte (a : Nat) (s : State) : UInt8 := byteAt (s.mem (a / 4096 * 4096)) (a % 4096)

def storeByte (a : Nat) (b : UInt8) (s : State) : State :=
  setContent (a / 4096 * 4096)
    (packPage (Function.update (byteAt (s.mem (a / 4096 * 4096))) (a % 4096) b)) s

def storeBytes : Nat → List UInt8 → State → State
  | _, [], s => s
  | a, b :: bs, s => storeBytes (a + 1) bs (storeByte a b s)

def storeWord (a v : Nat) (s : State) : State := storeBytes a (bytes 8 v) s

/-- The bytes at an address are these. -/
def KernBytes (a : Nat) (bs : List UInt8) (s : State) : Prop :=
  ∀ k, (h : k < bs.length) → kernByte (a + k) s = bs[k]

/-- The process reads these. -/
def UserBytes (p va : Nat) (bs : List UInt8) (s : State) : Prop :=
  ∀ k, (h : k < bs.length) → userByte p (va + k) s = some bs[k]

/-! ## The code -/

/-- A string is given as what is in memory from its address on; where the list ends is a NUL. -/
def strlen : List UInt8 → Nat
  | [] => 0
  | c :: src => if c = 0 then 0 else strlen src + 1

def strncpy : Nat → List UInt8 → Nat → State → State
  | _, _, 0, s => s
  | dest, [], n + 1, s => strncpy (dest + 1) [] n (storeByte dest 0 s)
  | dest, c :: src, n + 1, s =>
    if c = 0 then strncpy (dest + 1) [] n (storeByte dest 0 s)
    else strncpy (dest + 1) src n (storeByte dest c s)

/-- The loop over `argv`, with `va_argc_addr`, `kva_argc_addr` and `kva_argv_base`. -/
def copyArgs : List (List UInt8) → Nat → Nat → Nat → State → Nat × Nat × State
  | [], va, _, base, s => (va, base, s)
  | str :: argv, va, kva, base, s =>
    let len := strlen str + 1
    let va := va - len
    let kva := kva - len
    copyArgs argv va kva (base + 8) (storeWord base va (strncpy kva str len s))

/-- The registers on the kernel stack, which the process starts with. -/
structure PtRegs where
  regs : Nat → Nat
  sepc : Nat
  sstatus : Nat

/-- The registers that are not 0: `ra`, `sp`, `tp`, `a0` and `a1`. -/
def startRegs (ra sp tp a0 a1 : Nat) : Nat → Nat
  | 1 => ra
  | 2 => sp
  | 4 => tp
  | 10 => a0
  | 11 => a1
  | _ => 0

/-- The last part of `do_exec`: `kvaStack` is `kva_stack_addr`, the end of the page of the user
stack, and `pcb` the address of the PCB. -/
def passArgs (pcb entry kvaStack : Nat) (argv : List (List UInt8)) (s : State) : PtRegs × State :=
  let vaBase := userStackAddr - (argv.length + 1) * 8
  let kvaBase := kvaStack - (argv.length + 1) * 8
  let (va, base, s) := copyArgs argv vaBase kvaBase kvaBase s
  (⟨startRegs entry (va / 128 * 128) pcb argv.length vaBase, entry, 0x20⟩, storeWord base 0 s)

/-- `do_exec`, once it has found a PCB and the entry of the program. -/
def execTask (card behind : Nat → UInt8) (pcb p : Nat) (stack : Nat → Pte) (t : TaskInfo)
    (argv : List (List UInt8)) (s : State) : Except Stop (PtRegs × State) := do
  let (kva, s) ← execStack p stack s
  let s ← loadTask card behind p t s
  .ok (passArgs pcb t.entryAddr (kva + 4096) argv s)

/-! ## Stores -/

variable {s s' : State} {a b f : Nat} {bs : List UInt8}

/-- A byte that was stored, and the others. -/
theorem kernByte_storeByte (a a' : Nat) (v : UInt8) (s : State) :
    kernByte a' (storeByte a v s) = if a' = a then v else kernByte a' s := by
  unfold kernByte storeByte setContent
  by_cases hpage : a' / 4096 * 4096 = a / 4096 * 4096
  · simp only [hpage, if_true]
    change byteAt (packPage _) _ = _
    rw [byteAt_packPage]
    by_cases ha : a' = a
    · rw [ha, if_pos rfl, Function.update_self]
    · have hne : a' % 4096 ≠ a % 4096 := by omega
      rw [if_neg ha, Function.update_of_ne hne]
  · have ha : a' ≠ a := fun h => hpage (by rw [h])
    simp only [hpage, if_false, ha]

/-- A text leaves the bytes beside it, by induction on the text. -/
theorem storeBytes_frame : ∀ (bs : List UInt8) (a a' : Nat) (s : State),
    ¬(a ≤ a' ∧ a' < a + bs.length) → kernByte a' (storeBytes a bs s) = kernByte a' s := by
  intro bs
  induction bs with
  | nil => exact fun a a' s _ => rfl
  | cons b bs ih =>
      intro a a' s hout
      rw [List.length_cons] at hout
      rw [storeBytes, ih _ _ _ (by omega), kernByte_storeByte, if_neg (by omega)]

/-- A text that was stored is read back, by induction on the text. -/
theorem storeBytes_bytes : ∀ (bs : List UInt8) (a : Nat) (s : State),
    KernBytes a bs (storeBytes a bs s) := by
  intro bs
  induction bs with
  | nil => exact fun a s k hk => absurd hk (Nat.not_lt_zero k)
  | cons b bs ih =>
      intro a s k hk
      rw [storeBytes]
      cases k with
      | zero =>
          rw [storeBytes_frame _ _ _ _ (by omega), kernByte_storeByte, Nat.add_zero, if_pos rfl]
          rfl
      | succ k =>
          have hnext := ih (a + 1) (storeByte a b s) k (by simpa using hk)
          rw [Nat.add_right_comm, Nat.add_assoc] at hnext
          rw [hnext, List.getElem_cons_succ]

theorem Writes.trans {s'' : State} (h : Writes f s s') (h' : Writes f s' s'') : Writes f s s'' :=
  ⟨fun a j ha => (h'.mem a j ha).trans (h.mem a j ha), h'.pages.trans h.pages, h'.sd.trans h.sd,
    h'.procs.trans h.procs, h'.pageId.trans h.pageId, h'.kernMemCurr.trans h.kernMemCurr,
    h'.sector.trans h.sector, h'.writes.trans h.writes⟩

/-- A text inside a frame writes this frame, by induction on the text. -/
theorem storeBytes_writes (hf : f % 4096 = 0) : ∀ (bs : List UInt8) (a : Nat) (s : State), f ≤ a →
    a + bs.length ≤ f + 4096 → Writes f s (storeBytes a bs s) := by
  intro bs
  induction bs with
  | nil => exact fun a s _ _ => ⟨fun _ _ _ => rfl, rfl, rfl, rfl, rfl, rfl, rfl, rfl⟩
  | cons b bs ih =>
      intro a s hlo hhi
      rw [List.length_cons] at hhi
      rw [storeBytes]
      have hframe : a / 4096 * 4096 = f := by omega
      have hfirst : Writes f s (storeByte a b s) := by
        unfold storeByte
        rw [hframe]
        exact writes_setContent _ _ _
      exact hfirst.trans (ih _ _ (by omega) (by omega))

/-- They are still there where nothing of them is written. -/
theorem KernBytes.frame (h : KernBytes a bs s)
    (hsame : ∀ k < bs.length, kernByte (a + k) s' = kernByte (a + k) s) : KernBytes a bs s' := by
  intro k hk
  rw [hsame k hk]
  exact h k hk

/-! ## Strings -/

/-- The bytes before the NUL. -/
def chars (str : List UInt8) : List UInt8 := str.takeWhile (· ≠ 0)

/-- `strlen` is the length of the string. -/
theorem strlen_eq (str : List UInt8) : strlen str = (chars str).length := by
  induction str with
  | nil => rfl
  | cons c str ih =>
      unfold strlen chars
      by_cases hc : c = 0
      · rw [if_pos hc, List.takeWhile_cons_of_neg (by simpa using hc)]
        rfl
      · rw [if_neg hc, List.takeWhile_cons_of_pos (by simpa using hc), ih]
        rfl

/-- With room for the NUL, the whole string is copied. -/
theorem strncpy_strlen (str : List UInt8) : ∀ (dest : Nat) (s : State),
    strncpy dest str (strlen str + 1) s = storeBytes dest (chars str ++ [0]) s := by
  induction str with
  | nil => exact fun dest s => rfl
  | cons c str ih =>
      intro dest s
      unfold strlen chars
      by_cases hc : c = 0
      · rw [if_pos hc, List.takeWhile_cons_of_neg (by simpa using hc)]
        unfold strncpy
        rw [if_pos hc]
        rfl
      · rw [if_neg hc, List.takeWhile_cons_of_pos (by simpa using hc)]
        unfold strncpy
        rw [if_neg hc]
        exact ih _ _

/-! ## The loop -/

/-- What the strings need, with their NULs. -/
def argSize (argv : List (List UInt8)) : Nat := (argv.map fun str => strlen str + 1).sum

/-- The size of one string more. -/
@[simp] theorem argSize_cons (str : List UInt8) (argv : List (List UInt8)) :
    argSize (str :: argv) = strlen str + 1 + argSize argv := rfl

/-- The `i`-th string is below the ones before it. -/
def argAddr (top : Nat) (argv : List (List UInt8)) (i : Nat) : Nat :=
  top - argSize (argv.take (i + 1))

/-- What the loop leaves behind, from its cursors on. -/
structure Copied (argv : List (List UInt8)) (va kva base : Nat) (s : State)
    (r : Nat × Nat × State) : Prop where
  cursor : r.1 = va - argSize argv
  last : r.2.1 = base + 8 * argv.length
  pointer : ∀ i < argv.length, KernBytes (base + 8 * i) (bytes 8 (argAddr va argv i)) r.2.2
  string : ∀ i, (h : i < argv.length) → KernBytes (argAddr kva argv i) (chars argv[i] ++ [0]) r.2.2
  frame : ∀ a, ¬(kva - argSize argv ≤ a ∧ a < kva) → ¬(base ≤ a ∧ a < base + 8 * argv.length) →
    kernByte a r.2.2 = kernByte a s

/-- The loop over `argv` leaves strings and pointers, by induction on `argv`. -/
theorem copyArgs_copied : ∀ (argv : List (List UInt8)) (va kva base : Nat) (s : State),
    argSize argv ≤ kva → kva ≤ base → Copied argv va kva base s (copyArgs argv va kva base s) := by
  intro argv
  induction argv with
  | nil =>
      intro va kva base s _ _
      exact ⟨rfl, rfl, nofun, nofun, fun _ _ _ => rfl⟩
  | cons str argv ih =>
      intro va kva base s hsize hle
      rw [argSize_cons] at hsize
      obtain ⟨len, hlen⟩ : ∃ len, len = strlen str + 1 := ⟨_, rfl⟩
      have hstr : (chars str ++ [0]).length = len := by
        rw [List.length_append, ← strlen_eq, hlen]
        rfl
      obtain ⟨s₁, hs₁⟩ : ∃ s₁, s₁ = storeWord base (va - len) (strncpy (kva - len) str len s) :=
        ⟨_, rfl⟩
      have hcopy : copyArgs (str :: argv) va kva base s =
          copyArgs argv (va - len) (kva - len) (base + 8) s₁ := by
        rw [hs₁, hlen]
        rfl
      rw [← hlen] at hsize
      rw [hlen, strncpy_strlen, ← hlen] at hs₁
      have hrest := ih (va - len) (kva - len) (base + 8) s₁ (by omega) (by omega)
      rw [← hcopy] at hrest
      obtain ⟨r, hr⟩ : ∃ r, r = copyArgs (str :: argv) va kva base s := ⟨_, rfl⟩
      rw [← hr] at hrest ⊢
      have haddr (top i : Nat) :
          argAddr top (str :: argv) (i + 1) = argAddr (top - len) argv i := by
        unfold argAddr
        rw [List.take_succ_cons, argSize_cons, ← hlen, Nat.sub_sub]
      have haddr₀ (top : Nat) : argAddr top (str :: argv) 0 = top - len := by
        unfold argAddr
        rw [hlen]
        rfl
      have hword : ∀ a, ¬(base ≤ a ∧ a < base + 8) →
          kernByte a s₁ = kernByte a (storeBytes (kva - len) (chars str ++ [0]) s) := by
        intro a hout
        rw [hs₁]
        exact storeBytes_frame _ _ _ _ (by rw [length_bytes]; exact hout)
      refine ⟨?_, ?_, fun i hi => ?_, fun i hi => ?_, fun a hstrs hptrs => ?_⟩
      · rw [hrest.cursor, argSize_cons, ← hlen, Nat.sub_sub]
      · rw [hrest.last, List.length_cons, Nat.mul_succ, Nat.add_right_comm, Nat.add_assoc]
      · cases i with
        | zero =>
            rw [haddr₀]
            have hhere : KernBytes base (bytes 8 (va - len)) s₁ := by
              rw [hs₁]
              exact storeBytes_bytes _ _ _
            refine hhere.frame fun k hk => ?_
            rw [length_bytes] at hk
            exact hrest.frame _ (by omega) (by omega)
        | succ i =>
            have hnext := hrest.pointer i (by simpa using hi)
            rw [haddr]
            have hplace : base + 8 * (i + 1) = base + 8 + 8 * i := by omega
            rw [hplace]
            exact hnext
      · cases i with
        | zero =>
            rw [haddr₀]
            have hhere : KernBytes (kva - len) (chars str ++ [0]) s₁ := by
              refine (storeBytes_bytes (chars str ++ [0]) (kva - len) s).frame fun k hk => ?_
              rw [hstr] at hk
              exact hword _ (by omega)
            refine hhere.frame fun k hk => ?_
            rw [hstr] at hk
            exact hrest.frame _ (by omega) (by omega)
        | succ i =>
            rw [haddr]
            exact hrest.string i (by simpa using hi)
      · rw [argSize_cons, ← hlen] at hstrs
        rw [List.length_cons] at hptrs
        rw [hrest.frame a (by omega) (by omega), hword a (by omega),
          storeBytes_frame _ _ _ _ (by rw [hstr]; omega)]

/-- The loop writes the stack's frame only, by induction on `argv`. -/
theorem copyArgs_writes (hf : f % 4096 = 0) : ∀ (argv : List (List UInt8)) (va kva base : Nat)
    (s : State), f + argSize argv ≤ kva → kva ≤ f + 4096 → f ≤ base →
      base + 8 * argv.length ≤ f + 4096 → Writes f s (copyArgs argv va kva base s).2.2 := by
  intro argv
  induction argv with
  | nil => exact fun va kva base s _ _ _ _ => ⟨fun _ _ _ => rfl, rfl, rfl, rfl, rfl, rfl, rfl, rfl⟩
  | cons str argv ih =>
      intro va kva base s hlo hhi hbase hend
      rw [argSize_cons] at hlo
      rw [List.length_cons] at hend
      have hstr : (chars str ++ [0]).length = strlen str + 1 := by
        rw [List.length_append, ← strlen_eq]
        rfl
      unfold copyArgs
      simp only [strncpy_strlen]
      have hstrs := storeBytes_writes hf (chars str ++ [0]) (kva - (strlen str + 1)) s (by omega)
        (by omega)
      have hword := storeBytes_writes hf (bytes 8 (va - (strlen str + 1))) base
        (storeBytes (kva - (strlen str + 1)) (chars str ++ [0]) s) hbase
        (by rw [length_bytes]; omega)
      exact (hstrs.trans hword).trans (ih _ _ _ _ (by omega) (by omega) (by omega) (by omega))

/-! ## The stack of the new process -/

/-- `n` bytes from `a` on and `m` bytes from `b` on are in different places. -/
def Apart (a n b m : Nat) : Prop := ∀ x, ¬((a ≤ x ∧ x < a + n) ∧ b ≤ x ∧ x < b + m)

/-- What a program started with these arguments finds: the pointers from `a1` on, a NUL-terminated
string behind each of them, a zero behind the last, all of it in one page and above `sp`, and
nothing in one place with something else. -/
structure Passed (p : Nat) (argv : List (List UInt8)) (r : PtRegs) (s : State) : Prop where
  argc : r.regs 10 = argv.length
  arguments : ∃ addr : Nat → Nat,
    ∀ i : Fin argv.length, UserBytes p (r.regs 11 + 8 * i) (bytes 8 (addr i)) s ∧
      UserBytes p (addr i) (chars (argv.get i) ++ [0]) s ∧ r.regs 2 ≤ addr i ∧
      addr i < userStackAddr ∧
      Apart (addr i) (chars (argv.get i) ++ [0]).length (r.regs 11) (8 * (argv.length + 1)) ∧
      ∀ j : Fin argv.length, i ≠ j →
        Apart (addr i) (chars (argv.get i) ++ [0]).length
          (addr j) (chars (argv.get j) ++ [0]).length
  last : UserBytes p (r.regs 11 + 8 * argv.length) (bytes 8 0) s
  aligned : r.regs 2 % 128 = 0
  below : r.regs 2 ≤ r.regs 11
  page : userStackAddr - 4096 ≤ r.regs 2 ∧ r.regs 11 + 8 * (argv.length + 1) = userStackAddr

variable {root : Nat → Pte} {own : Owners} {p k : Nat}

/-- The first strings need no more than all of them. -/
theorem argSize_take (argv : List (List UInt8)) (n : Nat) :
    argSize (argv.take n) ≤ argSize argv := by
  conv_rhs => rw [← List.take_append_drop n argv]
  unfold argSize
  rw [List.map_append, List.sum_append]
  exact Nat.le_add_right _ _

/-- More strings need more. -/
theorem argSize_take_mono (argv : List (List UInt8)) {m n : Nat} (h : m ≤ n) :
    argSize (argv.take m) ≤ argSize (argv.take n) := by
  have hle := argSize_take (argv.take n) m
  rw [List.take_take, Nat.min_eq_left h] at hle
  exact hle

/-- A string begins where those before it end. -/
theorem argSize_take_succ {argv : List (List UInt8)} {i : Nat} (hi : i < argv.length) :
    argSize (argv.take (i + 1)) = argSize (argv.take i) + (chars argv[i] ++ [0]).length := by
  unfold argSize
  rw [List.map_take, List.map_take, List.sum_take_succ _ _ (by simpa using hi), List.getElem_map,
    List.length_append, ← strlen_eq]
  rfl

/-- The end of the stack is at the same place in the page, for the process and for the kernel. -/
theorem Shape.userByte_kern (h : Shape root own s)
    (hk : own k = some (p, some (pathOf (userStackAddr - 4096)))) (hres : Res s k) {d : Nat}
    (hd : 0 < d ∧ d ≤ 4096) :
    Mm.userByte p (userStackAddr - d) s = some (kernByte ((s.pages k).kva + 4096 - d) s) := by
  have hframe := (h.frame k (by rw [hk]; simp) hres).2.1
  obtain ⟨f, hf⟩ : ∃ f, f = (s.pages k).kva := ⟨_, rfl⟩
  have hpage : (userStackAddr - 4096) / 4096 = (userStackAddr - d) / 4096 := by
    unfold userStackAddr
    omega
  have hoff : (userStackAddr - d) % 4096 = 4096 - d := by
    unfold userStackAddr
    omega
  rw [pathOf_congr hpage] at hk
  rw [h.userByte hk hres, hoff]
  rw [← hf] at hframe ⊢
  have hbase : (f + 4096 - d) / 4096 * 4096 = f := by omega
  have hin : (f + 4096 - d) % 4096 = 4096 - d := by omega
  unfold kernByte
  rw [hbase, hin]

/-- What the kernel has written into the stack's frame, the process reads at its own address. -/
theorem KernBytes.user (h : Shape root own s)
    (hk : own k = some (p, some (pathOf (userStackAddr - 4096)))) (hres : Res s k) {d : Nat}
    (hd : d ≤ 4096) (hlen : bs.length ≤ d) (hb : KernBytes ((s.pages k).kva + 4096 - d) bs s) :
    UserBytes p (userStackAddr - d) bs s := by
  intro i hi
  have huser : userStackAddr - d + i = userStackAddr - (d - i) := by
    unfold userStackAddr
    omega
  have hkern : (s.pages k).kva + 4096 - d + i = (s.pages k).kva + 4096 - (d - i) := by omega
  rw [huser, h.userByte_kern hk hres (by omega), ← hkern, hb i hi]

/-- The strings are in different places. -/
theorem argAddr_apart {top i j : Nat} {argv : List (List UInt8)} (hi : i < argv.length)
    (hj : j < argv.length) (hij : i ≠ j) (htop : argSize argv ≤ top) :
    Apart (argAddr top argv i) (chars argv[i] ++ [0]).length
      (argAddr top argv j) (chars argv[j] ++ [0]).length := by
  have hsucc := argSize_take_succ hi
  have hsucc' := argSize_take_succ hj
  have hle := argSize_take argv (i + 1)
  have hle' := argSize_take argv (j + 1)
  unfold argAddr
  rintro x ⟨⟨hlo, hhi⟩, hlo', hhi'⟩
  rcases Nat.lt_or_gt_of_ne hij with hlt | hlt
  · have hmono : argSize (argv.take (i + 1)) ≤ argSize (argv.take j) := argSize_take_mono argv hlt
    omega
  · have hmono : argSize (argv.take (j + 1)) ≤ argSize (argv.take i) := argSize_take_mono argv hlt
    omega

/-- What the kernel has written into the page `f`, counted from its end: the array of `n` bytes,
and the strings below it. -/
structure Written (f n : Nat) (argv : List (List UInt8)) (s s' : State) : Prop where
  writes : Writes f s s'
  pointer : ∀ i < argv.length, KernBytes (f + 4096 - (n - 8 * i))
    (bytes 8 (argAddr (userStackAddr - n) argv i)) s'
  string : ∀ i, (h : i < argv.length) →
    KernBytes (f + 4096 - (n + argSize (argv.take (i + 1)))) (chars argv[i] ++ [0]) s'
  zero : KernBytes (f + 4096 - 8) (bytes 8 0) s'

/-- What the last part of `do_exec` has written. -/
theorem passArgs_written (hf : f % 4096 = 0) (pcb entry : Nat) {n : Nat} {argv : List (List UInt8)}
    (hn : n = (argv.length + 1) * 8) (hsize : n + argSize argv ≤ 4096) (s : State) :
    ∃ s', passArgs pcb entry (f + 4096) argv s =
      (⟨startRegs entry ((userStackAddr - (n + argSize argv)) / 128 * 128) pcb argv.length
        (userStackAddr - n), entry, 0x20⟩, s') ∧ Written f n argv s s' := by
  obtain ⟨r, hr⟩ : ∃ r, r = copyArgs argv (userStackAddr - n) (f + 4096 - n) (f + 4096 - n) s :=
    ⟨_, rfl⟩
  have hcopied : Copied argv (userStackAddr - n) (f + 4096 - n) (f + 4096 - n) s r := by
    rw [hr]
    exact copyArgs_copied argv _ _ _ s (by omega) le_rfl
  have hlast : r.2.1 = f + 4096 - 8 := by
    rw [hcopied.last]
    omega
  have hcursor : r.1 = userStackAddr - (n + argSize argv) := by
    rw [hcopied.cursor, Nat.sub_sub]
  obtain ⟨s', hs'⟩ : ∃ s', s' = storeWord r.2.1 0 r.2.2 := ⟨_, rfl⟩
  -- The zero word is the last of the array, and above the strings.
  have hkeep {a : Nat} {bs : List UInt8} (h : KernBytes a bs r.2.2)
      (hout : a + bs.length ≤ f + 4096 - 8) : KernBytes a bs s' := by
    refine h.frame fun j hj => ?_
    rw [hs', hlast]
    exact storeBytes_frame _ _ _ _ (by omega)
  refine ⟨s', ?_, ?_, fun i hi => ?_, fun i hi => ?_, ?_⟩
  · rw [hs', ← hcursor, hr, hn]
    rfl
  · have hcopy := copyArgs_writes hf argv (userStackAddr - n) (f + 4096 - n) (f + 4096 - n) s
      (by omega) (by omega) (by omega) (by omega)
    rw [← hr] at hcopy
    rw [hs', hlast]
    exact hcopy.trans (storeBytes_writes hf _ _ _ (by omega) (by rw [length_bytes]; omega))
  · have hplace : f + 4096 - n + 8 * i = f + 4096 - (n - 8 * i) := by omega
    have hlen : (bytes 8 (argAddr (userStackAddr - n) argv i)).length = 8 := length_bytes _ _
    have hptr := hcopied.pointer i hi
    rw [hplace] at hptr
    exact hkeep hptr (by omega)
  · have hplace : argAddr (f + 4096 - n) argv i = f + 4096 - (n + argSize (argv.take (i + 1))) :=
      Nat.sub_sub _ _ _
    have hsucc := argSize_take_succ hi
    have hle := argSize_take argv (i + 1)
    have hstr := hcopied.string i hi
    rw [hplace] at hstr
    exact hkeep hstr (by omega)
  · rw [hs', hlast]
    exact storeBytes_bytes _ _ _

/-- The process finds its arguments. -/
theorem passArgs_passed (hs : Sane root own s)
    (hk : own k = some (p, some (pathOf (userStackAddr - 4096)))) (hres : Res s k)
    (pcb entry : Nat) (argv : List (List UInt8))
    (hsize : (argv.length + 1) * 8 + argSize argv + 127 ≤ 4096) :
    Passed p argv (passArgs pcb entry ((s.pages k).kva + 4096) argv s).1
      (passArgs pcb entry ((s.pages k).kva + 4096) argv s).2 := by
  have hframe : (s.pages k).kva % 4096 = 0 := (hs.shape.frame k (by rw [hk]; simp) hres).2.1
  obtain ⟨n, hn⟩ : ∃ n, n = (argv.length + 1) * 8 := ⟨_, rfl⟩
  rw [← hn] at hsize
  obtain ⟨s', hpass, hwritten⟩ := passArgs_written hframe pcb entry hn (by omega) s
  have hshape : Shape root own s' := (hs.write hk hres hwritten.writes).shape
  have hpages := hwritten.writes.pages
  have hres' : Res s' k := by
    unfold Res
    rw [hpages]
    exact hres
  have huser {d : Nat} {bs : List UInt8} (hd : d ≤ 4096) (hlen : bs.length ≤ d)
      (h : KernBytes ((s.pages k).kva + 4096 - d) bs s') :
      UserBytes p (userStackAddr - d) bs s' := by
    rw [← hpages] at h
    exact h.user hshape hk hres' hd hlen
  have htop : userStackAddr % 4096 = 0 ∧ 4096 < userStackAddr := by decide
  rw [hpass]
  refine ⟨rfl, ⟨argAddr (userStackAddr - n) argv, fun ⟨i, hi⟩ => ?_⟩, ?_, ?_, ?_, ?_⟩
  · change UserBytes p (userStackAddr - n + 8 * i) _ s' ∧ _ ∧
      (userStackAddr - (n + argSize argv)) / 128 * 128 ≤ _ ∧ _ ∧ Apart _ _ (userStackAddr - n) _ ∧ _
    simp only [List.get_eq_getElem]
    have hsucc := argSize_take_succ hi
    have hle := argSize_take argv (i + 1)
    have hbelow : argAddr (userStackAddr - n) argv i =
        userStackAddr - (n + argSize (argv.take (i + 1))) := Nat.sub_sub _ _ _
    refine ⟨?_, ?_, ?_, ?_, ?_, fun ⟨j, hj⟩ hne => ?_⟩
    · have hplace : userStackAddr - n + 8 * i = userStackAddr - (n - 8 * i) := by omega
      have hlen : (bytes 8 (argAddr (userStackAddr - n) argv i)).length = 8 := length_bytes _ _
      rw [hplace]
      exact huser (by omega) (by omega) (hwritten.pointer i hi)
    · rw [hbelow]
      exact huser (by omega) (by omega) (hwritten.string i hi)
    · rw [hbelow]
      omega
    · rw [hbelow]
      omega
    · rw [hbelow]
      rintro x ⟨⟨-, hhi⟩, hlo, -⟩
      omega
    · exact argAddr_apart hi hj (fun hcon => hne (Fin.ext hcon)) (by omega)
  · change UserBytes p (userStackAddr - n + 8 * argv.length) _ s'
    have hplace : userStackAddr - n + 8 * argv.length = userStackAddr - 8 := by omega
    rw [hplace]
    exact huser (by decide) (le_of_eq (length_bytes _ _)) hwritten.zero
  · exact Nat.mul_mod_left _ _
  · change (userStackAddr - (n + argSize argv)) / 128 * 128 ≤ userStackAddr - n
    omega
  · change userStackAddr - 4096 ≤ (userStackAddr - (n + argSize argv)) / 128 * 128 ∧
      userStackAddr - n + 8 * (argv.length + 1) = userStackAddr
    omega

/-- The same for all of `do_exec`. -/
theorem execTask_passed (hs : Sane root own s) (card behind : Nat → UInt8) (pcb p : Nat)
    (stack : Nat → Pte) {t : TaskInfo} {argv : List (List UInt8)}
    (hstack : User root (vpn2 (userStackAddr - 4096)))
    (himage : ∀ i < t.memsz, User root (vpn2 (t.entryAddr + i)))
    (hsize : (argv.length + 1) * 8 + argSize argv + 127 ≤ 4096) :
    Holds AnyStop (fun r => Passed p argv r.1 r.2) (execTask card behind pcb p stack t argv s) := by
  unfold execTask
  refine Holds.bind (execStack_page hs p stack hstack) fun r hA => ?_
  obtain ⟨own₁, x, k, hs₁, hpin₁, hx, hk, hkva⟩ := hA
  obtain ⟨image, hpages, hload⟩ := loadTask_img card behind p t r.2
  have huser : ∀ c ∈ image, User root (vpn2 c.1) := by
    intro c hc
    obtain ⟨i, hi, hva⟩ := hpages c hc
    rw [hva]
    exact himage i hi
  change Holds AnyStop _ (loadTask card behind p t r.2 >>= _)
  rw [hload]
  refine Holds.bind (loadTaskImg_sane image hs₁ hx huser hpin₁) fun s₂ hB => ?_
  obtain ⟨own₂, hs₂, hg₂, -⟩ := hB
  -- The page of the stack is where it was.
  have hk₂ := hg₂.kept _ _ hk
  have hsame : s₂.pages k = r.2.pages k :=
    hg₂.pages k (by rw [hk]; simp) (by rw [hpin₁ k _ hk]; decide)
  rw [← hsame] at hkva
  rw [hkva]
  exact passArgs_passed hs₂ hk₂ ((hpin₁.grows hg₂).res hk₂) pcb t.entryAddr argv hsize

/-- **The arguments.**  Whatever has happened before, a program starts with `argc` and the
address of the pointers in its registers, and finds the strings behind the pointers, if they and
the pointers fit into a page. -/
theorem do_exec_arguments {s₀ : State} (hboot : Booted s₀) {es : List Event}
    (hes : ∀ e ∈ es, UserEvent (s₀.mem (pa2kva pgdirPa)) e) (hrun : run handle es s₀ = .ok s)
    (hstack : User (s₀.mem (pa2kva pgdirPa)) (vpn2 (userStackAddr - 4096))) {t : TaskInfo}
    (himage : ∀ i < t.memsz, User (s₀.mem (pa2kva pgdirPa)) (vpn2 (t.entryAddr + i)))
    {argv : List (List UInt8)} (hsize : (argv.length + 1) * 8 + argSize argv + 127 ≤ 4096)
    {card behind : Nat → UInt8} {pcb : Nat} {stack : Nat → Pte} {r : PtRegs}
    (hexec : execTask card behind pcb p stack t argv s = .ok (r, s')) : Passed p argv r s' := by
  obtain ⟨⟨own, hsane, -⟩, -⟩ := run_good hboot hes hrun
  exact (execTask_passed hsane card behind pcb p stack hstack himage hsize).of_ok hexec

/-- `argv` of the command `echo hi` with an empty string behind. -/
def echoHi : List (List UInt8) := [[101, 99, 104, 111], [104, 105], []]

/-- A program started with three arguments, the last of them empty. -/
theorem do_exec_arguments_echoHi : ∃ r s', execTask (fun _ => 0) (fun _ => 0) 0 1 blank
    (program 4 601) echoHi usedState = .ok (r, s') ∧ Passed 1 echoHi r s' := by
  have hok : returns (fun _ => True) (execTask (fun _ => 0) (fun _ => 0) 0 1 blank (program 4 601)
      echoHi usedState) = true := by decide +kernel
  obtain ⟨⟨r, s'⟩, hexec, -⟩ := exists_of_returns hok
  have hnone : ∀ e ∈ ([] : List Event), UserEvent (usedState.mem (pa2kva pgdirPa)) e := nofun
  have hstack : User (usedState.mem (pa2kva pgdirPa)) (vpn2 (userStackAddr - 4096)) := by
    decide +kernel
  exact ⟨r, s', hexec, do_exec_arguments usedState_booted hnone rfl hstack
    (program_loadable (by decide) (by decide)).user (by decide) hexec⟩

end Mm
