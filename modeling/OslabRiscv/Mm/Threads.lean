import OslabRiscv.Mm.AddressMap
import OslabRiscv.Mm.Bytes

/-!
# The stacks of threads

`do_thread_create` puts the stack of a new thread at an address that depends on how
many threads the caller has created, and the caller may be a thread itself.  Callers
that share an address space count each for themselves, and where a page is mapped
already, `alloc_page_helper` returns it.
-/

namespace Mm

open Outcome

/-! ## Creating threads -/

/-- The page of the stack of thread number `n`; 0 is the process itself. -/
def stackPage (n : Nat) : Nat := userStackAddr + n * 4096 - 4096

/-- A process and its threads: the memory, the counters (`childnum`) of all PCBs, and the
slots of the threads that live, each with the number it was given. -/
structure Family where
  mem : State
  childnum : Nat → Nat
  threads : List (Nat × Nat)

inductive ThreadCall
  | create (caller slot : Nat) (stack : Nat → Pte)
  | exit (slot : Nat)

/-- The process in slot `main`, or a thread of it, creates a thread in a slot that none of
them has; or a thread ends. -/
def threadStep (main : Nat) : ThreadCall → Family → Except Stop Family
  | .create c p stack, f =>
    if (c = main ∨ c ∈ f.threads.map Prod.fst) ∧ p ≠ main ∧ p ∉ f.threads.map Prod.fst then do
      let n := f.childnum c + 1
      let s ← doThreadCreate p c n stack f.mem
      .ok ⟨s, Function.update f.childnum c n, f.threads ++ [(p, n)]⟩
    else .error .undefined
  | .exit p, f => .ok { f with threads := f.threads.filter fun t => t.1 ≠ p }

/-- The numbers of the stacks in use. -/
def Family.numbers (f : Family) : List Nat := 0 :: f.threads.map Prod.snd

/-- The threads share the root table `d`, their stacks and that of the process are on
different pages, and each of these has a frame of its own. -/
structure StacksApart (d : Nat) (f : Family) : Prop where
  shared : ∀ t ∈ f.threads, (f.mem.procs t.1).pgdir = d
  pages : (f.numbers.map stackPage).Nodup
  mapped : ∀ n ∈ f.numbers, ∃ x, There d (stackPage n) x f.mem
  own : ∀ n ∈ f.numbers, ∀ m ∈ f.numbers, ∀ x, There d (stackPage n) x f.mem →
    There d (stackPage m) x f.mem → n = m

/-- The next number of the caller is not the number of a thread that lives. -/
def NewNumber (f : Family) : ThreadCall → Prop
  | .create c _ _ => f.childnum c + 1 ∉ f.threads.map Prod.snd
  | .exit _ => True

instance (f : Family) : ∀ c, Decidable (NewNumber f c)
  | .create c _ _ => inferInstanceAs (Decidable (f.childnum c + 1 ∉ f.threads.map Prod.snd))
  | .exit _ => inferInstanceAs (Decidable True)

/-! ## The table of the stacks -/

/-- The entries for the stacks are in one table `t`, under `u` and the root `d`; its pages
are different. -/
structure StackTable (d u t : Nat) (s : State) : Prop where
  top : (s.mem d (vpn2 userStackAddr)).has present = true ∧
    pageOf (s.mem d (vpn2 userStackAddr)) = u
  mid : (s.mem u (vpn1 userStackAddr)).has present = true ∧
    pageOf (s.mem u (vpn1 userStackAddr)) = t
  apart : d ≠ t ∧ u ≠ t
  low : d < s.kernMemCurr ∧ u < s.kernMemCurr ∧ t < s.kernMemCurr
  frames : ∀ i, (s.mem t i).has present = true → pageOf (s.mem t i) < s.kernMemCurr
  inj : ∀ i j, (s.mem t i).has present = true → (s.mem t j).has present = true →
    pageOf (s.mem t i) = pageOf (s.mem t j) → i = j

variable {d u t p n c : Nat} {s s' : State} {f f' : Family}

/-- The first 496 stacks have their entries in the table of the process's own. -/
theorem stackPage_vpn (hn : n ≤ 496) : vpn2 (stackPage n) = vpn2 userStackAddr ∧
    vpn1 (stackPage n) = vpn1 userStackAddr ∧ vpn0 (stackPage n) = 15 + n := by
  unfold stackPage vpn2 vpn1 vpn0 userStackAddr
  omega

/-- A stack is there when its entry in the table is present. -/
theorem StackTable.there_iff (h : StackTable d u t s) (hn : n ≤ 496) (x : Nat) :
    There d (stackPage n) x s ↔
      (s.mem t (15 + n)).has present = true ∧ pageOf (s.mem t (15 + n)) = x := by
  obtain ⟨h2, h1, h0⟩ := stackPage_vpn hn
  have hwalk : pteChecker (stackPage n) d s =
      if (s.mem t (15 + n)).has present || (s.mem t (15 + n)).has inSd then some (t, 15 + n)
      else none := by
    unfold pteChecker
    simp only [h2, h1, h0, h.top, h.mid, if_true]
  unfold There
  rw [hwalk]
  constructor
  · rintro ⟨a, i, hsome, hp, hx⟩
    split_ifs at hsome
    cases hsome
    exact ⟨hp, hx⟩
  · rintro ⟨hp, hx⟩
    exact ⟨t, 15 + n, by rw [hp]; rfl, hp, hx⟩

/-- Memory is written above what has been handed out, or an entry is filled with a frame
from there. -/
theorem StackTable.keep (h : StackTable d u t s) (hkern : s.kernMemCurr ≤ s'.kernMemCurr)
    (hmem : ∀ a < s.kernMemCurr, ∀ i, s'.mem a i = s.mem a i) : StackTable d u t s' := by
  obtain ⟨htop, hmid, hapart, ⟨hd, hu, ht⟩, hframes, hinj⟩ := h
  refine ⟨?_, ?_, hapart, ⟨by omega, by omega, by omega⟩, fun i hp => ?_, fun i j hi hj => ?_⟩
  · rw [hmem d hd]
    exact htop
  · rw [hmem u hu]
    exact hmid
  · rw [hmem t ht] at hp ⊢
    exact (hframes i hp).trans_le hkern
  · rw [hmem t ht] at hi hj ⊢
    rw [hmem t ht]
    exact hinj i j hi hj

/-- An entry that is set keeps the table. -/
theorem StackTable.enter (h : StackTable d u t s) {i x : Nat} {e : Pte}
    (hx : s.kernMemCurr ≤ x ∧ x < s'.kernMemCurr) (he : e.has present = true ∧ pageOf e = x)
    (hmem : ∀ a < s.kernMemCurr, ∀ j, s'.mem a j = if a = t ∧ j = i then e else s.mem a j) :
    StackTable d u t s' := by
  obtain ⟨htop, hmid, hapart, ⟨hd, hu, ht⟩, hframes, hinj⟩ := h
  have hentry (j : Nat) : s'.mem t j = if j = i then e else s.mem t j := by
    rw [hmem t ht]
    simp only [true_and]
  have hpage (j : Nat) (hp : (s'.mem t j).has present = true) :
      (j = i ∧ pageOf (s'.mem t j) = x) ∨
      (j ≠ i ∧ s'.mem t j = s.mem t j ∧ pageOf (s'.mem t j) < s.kernMemCurr) := by
    rw [hentry] at hp ⊢
    by_cases hj : j = i
    · rw [if_pos hj]
      exact Or.inl ⟨hj, he.2⟩
    · rw [if_neg hj] at hp ⊢
      exact Or.inr ⟨hj, rfl, hframes j hp⟩
  refine ⟨?_, ?_, hapart, ⟨by omega, by omega, by omega⟩, fun j hp => ?_, fun j k hj hk heq => ?_⟩
  · rw [hmem d hd, if_neg fun hc => hapart.1 hc.1]
    exact htop
  · rw [hmem u hu, if_neg fun hc => hapart.2 hc.1]
    exact hmid
  · rcases hpage j hp with ⟨-, hj⟩ | ⟨-, -, hj⟩
    · omega
    · omega
  · rcases hpage j hj with ⟨hji, hjx⟩ | ⟨hji, hjs, hjx⟩
    · rcases hpage k hk with ⟨hki, -⟩ | ⟨-, -, hkx⟩
      · rw [hji, hki]
      · omega
    · rcases hpage k hk with ⟨-, hkx⟩ | ⟨-, hks, -⟩
      · omega
      · rw [hjs, hks] at heq
        rw [hjs] at hj
        rw [hks] at hk
        exact hinj j k hj hk heq

/-! ## One creation -/

/-- A page for a process that may have another one. -/
structure NextPage (p : Nat) (s : State) (r : Nat × State) : Prop where
  kva : (r.2.pages r.1).kva = s.kernMemCurr
  mem : r.2.mem = s.mem
  kern : r.2.kernMemCurr = s.kernMemCurr + 4096
  pageId : r.2.pageId = s.pageId + 1
  pgdir : ∀ q, (r.2.procs q).pgdir = (s.procs q).pgdir
  room : (r.2.procs p).upbound = (s.procs p).upbound ∧
    (r.2.procs p).pagenum = (s.procs p).pagenum + 1

/-- A process that may have another page gets one. -/
theorem allocPagetable_next (h : Ledger n s) (hroom : (s.procs p).pagenum ≠ (s.procs p).upbound)
    (st : PageStatus) : Holds AnyStop (NextPage p s) (allocPagetable p st s) := by
  have hcur : (s.kernMemCurr + 4095) / 4096 * 4096 = s.kernMemCurr := by
    have := h.room.2.1
    omega
  unfold allocPagetable
  rw [if_neg hroom]
  refine Holds.bind (findUnused_next h _) fun q hq => ?_
  obtain ⟨rfl, -⟩ := hq
  refine ⟨?_, rfl, ?_, rfl, fun q => ?_, ?_⟩
  · simp [setProc, setPage, hcur]
  · simp [setProc, setPage, hcur]
  · by_cases hq : q = p
    · simp [setProc, setPage, hq]
    · simp [setProc, setPage, hq]
  · simp [setProc, setPage]

/-- What a creation leaves: the stack is there, on the page it was on or on a new one, and
the stacks of other numbers are where they were. -/
structure Created (d u t p n : Nat) (s s' : State) : Prop where
  table : StackTable d u t s'
  there : (s'.mem t (15 + n)).has present = true
  others : ∀ i, i ≠ 15 + n → s'.mem t i = s.mem t i
  pgdir : ∀ q, (s'.procs q).pgdir = if q = p then d else (s.procs q).pgdir
  pageId : s.pageId < s'.pageId

/-- `do_thread_create` leaves the stack of its number. -/
theorem doThreadCreate_created {k : Nat} (h : Ledger k s) (hk : k ≤ 64) (ht : StackTable d u t s)
    (hdir : (s.procs c).pgdir = d) (hn : n ≤ 496) (p : Nat) (stack : Nat → Pte) :
    Holds AnyStop (Created d u t p n s) (doThreadCreate p c n stack s) := by
  obtain ⟨s₀, hs₀⟩ : ∃ s₀, s₀ = setProc p ⟨true, (s.procs c).pgdir, 0, maxPagetableNum, []⟩ s :=
    ⟨_, rfl⟩
  have hproc : s₀.procs p = ⟨true, d, 0, maxPagetableNum, []⟩ := by
    rw [hs₀, ← hdir]
    exact if_pos rfl
  have hled₀ : Ledger k s₀ := by
    rw [hs₀]
    exact h.setProc (fun id hid => by cases hid) (h.dir c)
  have hdir₀ (q : Nat) : (s₀.procs q).pgdir = if q = p then d else (s.procs q).pgdir := by
    by_cases hq : q = p
    · rw [if_pos hq, hq, hproc]
    · rw [if_neg hq, hs₀]
      exact congrArg Proc.pgdir (if_neg hq)
  have hroom₀ : (s₀.procs p).pagenum ≠ (s₀.procs p).upbound := by
    rw [hproc]
    change 0 ≠ maxPagetableNum
    decide
  have hpid₀ : s₀.pageId = s.pageId := by rw [hs₀]; rfl
  have hkern₀ : s₀.kernMemCurr = s.kernMemCurr := by rw [hs₀]; rfl
  have hmem₀ : s₀.mem = s.mem := by rw [hs₀]; rfl
  unfold doThreadCreate
  simp only [← hs₀]
  refine Holds.bind ((allocPagetable_next hled₀ hroom₀ .unswapable).both
    (allocPagetable_ledger hled₀ p .unswapable)) fun r hr => ?_
  obtain ⟨hnext, hled₁, -⟩ := hr
  obtain ⟨s₁, hs₁⟩ : ∃ s₁, s₁ = setContent (r.2.pages r.1).kva stack r.2 := ⟨_, rfl⟩
  have hkva : (r.2.pages r.1).kva = s.kernMemCurr := hnext.kva.trans hkern₀
  -- The kernel stack is in a new page.
  have hmem₁ : ∀ a < s.kernMemCurr, ∀ i, s₁.mem a i = s.mem a i := by
    intro a ha i
    rw [hs₁, hkva]
    simp only [setContent, if_neg (Nat.ne_of_lt ha), hnext.mem, hmem₀]
  have hkern₁ : s₁.kernMemCurr = s.kernMemCurr + 4096 := by
    rw [hs₁, ← hkern₀]
    exact hnext.kern
  have ht₁ : StackTable d u t s₁ := ht.keep (by omega) hmem₁
  have hdir₁ (q : Nat) : (s₁.procs q).pgdir = if q = p then d else (s.procs q).pgdir := by
    rw [hs₁, ← hdir₀]
    exact hnext.pgdir q
  have hroom₁ : (s₁.procs p).pagenum ≠ (s₁.procs p).upbound := by
    have hbound := hnext.room
    rw [hproc] at hbound
    rw [hs₁]
    change (r.2.procs p).pagenum ≠ (r.2.procs p).upbound
    rw [hbound.1, hbound.2]
    change 0 + 1 ≠ maxPagetableNum
    decide
  have hpid₁ : s₁.pageId = s.pageId + 1 := by
    rw [hs₁, ← hpid₀]
    exact hnext.pageId
  replace hled₁ : Ledger k s₁ := by
    rw [hs₁]
    exact hled₁.same rfl rfl rfl rfl
  simp only [← hs₁]
  -- The tables are there already.
  obtain ⟨h2, h1, h0⟩ := stackPage_vpn hn
  have htop : tableAt p d (vpn2 (stackPage n)) s₁ = .ok (u, s₁) := by
    unfold tableAt
    rw [h2, if_pos ht₁.top.1, ht₁.top.2]
  have hmid : tableAt p u (vpn1 (stackPage n)) s₁ = .ok (t, s₁) := by
    unfold tableAt
    rw [h1, if_pos ht₁.mid.1, ht₁.mid.2]
  have hp : (s₁.procs p).pgdir = d := by rw [hdir₁, if_pos rfl]
  change Holds AnyStop _ (allocPageHelper (stackPage n) p .unswapable s₁ >>= _)
  unfold allocPageHelper
  rw [hp, htop]
  change Holds AnyStop _ ((tableAt p u (vpn1 (stackPage n)) s₁ >>= _) >>= _)
  rw [hmid]
  change Holds AnyStop _
    ((if (s₁.mem t (vpn0 (stackPage n))).has present = true then _ else _) >>= _)
  rw [h0]
  have hlow := ht.low.2.2
  split_ifs with hthere
  · have hlater : s.pageId < s₁.pageId := by omega
    exact ⟨ht₁, hthere, fun i _ => hmem₁ t hlow i, hdir₁, hlater⟩
  · rw [bind_assoc]
    refine Holds.bind (allocPagetable_next hled₁ hroom₁ .unswapable) fun q hq => ?_
    obtain ⟨id, s₂⟩ := q
    obtain ⟨hkva₂, hmem₂, hkern₂, hpid₂, hdir₂, -⟩ := hq
    simp only at hkva₂ hmem₂ hkern₂ hpid₂ hdir₂
    obtain ⟨e, he⟩ : ∃ e, e = leafEntry (kva2pa s₁.kernMemCurr / 4096) (s₁.mem t (15 + n)) :=
      ⟨_, rfl⟩
    have hframe : Frame s₁.kernMemCurr := hled₁.frameOf hk
    have hentry : e.has present = true ∧ pageOf e = s₁.kernMemCurr := by
      rw [he]
      exact newEntry leafAttr_present hframe rfl
    obtain ⟨s₃, hs₃⟩ : ∃ s₃, s₃ = modifyWord t (15 + n) (setAttribute leafAttr)
        (modifyWord t (15 + n) (setPfn (kva2pa s₁.kernMemCurr / 4096))
          (setPage id { s₂.pages id with uva := stackPage n, pte := some (t, 15 + n) } s₂)) :=
      ⟨_, rfl⟩
    have hmem₃ (a j : Nat) : s₃.mem a j = if a = t ∧ j = 15 + n then e else s₁.mem a j := by
      rw [hs₃, he, ← hmem₂]
      by_cases haj : a = t ∧ j = 15 + n
      · obtain ⟨rfl, rfl⟩ := haj
        simp [modifyWord, setWord, leafEntry, setPage]
      · simp [modifyWord, setWord, haj, setPage]
    have hkern₃ : s₃.kernMemCurr = s₁.kernMemCurr + 4096 := by
      rw [hs₃]
      exact hkern₂
    have hcreated : Created d u t p n s s₃ := by
      have hbelow : s₁.kernMemCurr < s₃.kernMemCurr := by omega
      have htable₃ : StackTable d u t s₃ := ht₁.enter ⟨le_rfl, hbelow⟩ hentry fun a _ j => hmem₃ a j
      refine ⟨htable₃, ?_,
        fun i hi => ?_, fun q => ?_, ?_⟩
      · rw [hmem₃, if_pos ⟨rfl, rfl⟩]
        exact hentry.1
      · rw [hmem₃, if_neg fun hc => hi hc.2]
        exact hmem₁ t hlow i
      · rw [← hdir₁, ← hdir₂, hs₃]
        rfl
      · have hlast : s₃.pageId = s₂.pageId := by
          rw [hs₃]
          rfl
        omega
    have hkva₃ : ((setPage id { s₂.pages id with uva := stackPage n, pte := some (t, 15 + n) }
        s₂).pages id).kva = s₁.kernMemCurr := by
      simp only [setPage, if_pos, hkva₂]
    rw [hs₃, ← hkva₃] at hcreated
    exact hcreated

/-! ## Runs -/

/-- What every step keeps, whatever numbers are given: every stack is in the table. -/
structure InTable (main d u t : Nat) (f : Family) : Prop where
  ledger : ∃ k ≤ 64, Ledger k f.mem
  table : StackTable d u t f.mem
  count : ∀ c, f.childnum c ≤ f.mem.pageId
  main : (f.mem.procs main).pgdir = d
  shared : ∀ x ∈ f.threads, (f.mem.procs x.1).pgdir = d
  bound : ∀ x ∈ f.threads, x.2 ≤ f.mem.pageId
  there : ∀ n ∈ f.numbers, (f.mem.mem t (15 + n)).has present = true

variable {main : Nat}

/-- The numbers stay in the table. -/
theorem InTable.small (h : InTable main d u t f) {m : Nat} (hm : m ≤ f.mem.pageId) :
    m + 1 ≤ 496 := by
  obtain ⟨k, -, hled⟩ := h.ledger
  have hcount := hled.count
  unfold pageNum at hcount
  omega

/-- The numbers in use are in the table. -/
theorem InTable.number_le (h : InTable main d u t f) (hn : n ∈ f.numbers) : n ≤ 496 := by
  rcases List.mem_cons.1 hn with rfl | hn
  · exact Nat.zero_le _
  · obtain ⟨x, hx, rfl⟩ := List.mem_map.1 hn
    have := h.small (h.bound x hx)
    omega

theorem stackPage_injective : Function.Injective stackPage := by
  intro n m h
  unfold stackPage userStackAddr at h
  omega

/-- The stacks are apart exactly when no number has been given twice. -/
theorem InTable.apart_iff (h : InTable main d u t f) :
    StacksApart d f ↔ f.numbers.Nodup := by
  refine ⟨fun ha => ha.pages.of_map _, fun hnodup => ⟨h.shared, ?_, fun n hn => ?_,
    fun n hn m hm x hx hx' => ?_⟩⟩
  · exact hnodup.map stackPage_injective
  · exact ⟨_, (h.table.there_iff (h.number_le hn) _).2 ⟨h.there n hn, rfl⟩⟩
  · obtain ⟨hp, hpage⟩ := (h.table.there_iff (h.number_le hn) x).1 hx
    obtain ⟨hp', hpage'⟩ := (h.table.there_iff (h.number_le hm) x).1 hx'
    have := h.table.inj _ _ hp hp' (hpage.trans hpage'.symm)
    omega

/-- A thread that is created has its stack in the table. -/
theorem InTable.create (h : InTable main d u t f) (p : Nat) (stack : Nat → Pte)
    (hrun : threadStep main (.create c p stack) f = .ok f') :
    InTable main d u t f' ∧ f'.numbers = f.numbers ++ [f.childnum c + 1] := by
  simp only [threadStep] at hrun
  split_ifs at hrun with hlegal
  obtain ⟨hcaller, hmain, hfree⟩ := hlegal
  have hdir : (f.mem.procs c).pgdir = d := by
    rcases hcaller with rfl | hc
    · exact h.main
    · obtain ⟨x, hx, rfl⟩ := List.mem_map.1 hc
      exact h.shared x hx
  obtain ⟨k, hk, hled⟩ := h.ledger
  have hn := h.small (h.count c)
  have hcreated := doThreadCreate_created hled hk h.table hdir hn p stack
  have hledger := doThreadCreate_ledger hled p c (f.childnum c + 1) stack
  cases hs : doThreadCreate p c (f.childnum c + 1) stack f.mem with
  | error e =>
      rw [hs] at hrun
      cases hrun
  | ok s' =>
      rw [hs] at hrun hcreated hledger
      cases hrun
      obtain ⟨htable, hthere, hothers, hpgdir, hpid⟩ := hcreated
      have hcount := h.count c
      refine ⟨⟨⟨k, hk, hledger⟩, htable, fun b => ?_, ?_, fun x hx => ?_, fun x hx => ?_,
        fun m hm => ?_⟩, ?_⟩
      · change Function.update f.childnum c (f.childnum c + 1) b ≤ s'.pageId
        by_cases hb : b = c
        · rw [hb, Function.update_self]
          omega
        · rw [Function.update_of_ne hb]
          have := h.count b
          omega
      · change (s'.procs main).pgdir = d
        rw [hpgdir, if_neg (Ne.symm hmain)]
        exact h.main
      · change (s'.procs x.1).pgdir = d
        rw [hpgdir]
        rcases List.mem_append.1 hx with hx | hx
        · rw [if_neg fun hxp : x.1 = p => hfree (hxp ▸ List.mem_map_of_mem hx)]
          exact h.shared x hx
        · rw [List.mem_singleton.1 hx, if_pos rfl]
      · change x.2 ≤ s'.pageId
        rcases List.mem_append.1 hx with hx | hx
        · have := h.bound x hx
          omega
        · rw [List.mem_singleton.1 hx]
          simp only
          omega
      · change (s'.mem t (15 + m)).has present = true
        by_cases hmn : m = f.childnum c + 1
        · rw [hmn]
          exact hthere
        · have hne : 15 + m ≠ 15 + (f.childnum c + 1) := by omega
          rw [hothers _ hne]
          refine h.there m ?_
          simp only [Family.numbers, List.map_append, List.map_cons, List.map_nil,
            List.mem_cons, List.mem_append, List.not_mem_nil, or_false] at hm ⊢
          rcases hm with hm | hm | hm
          · exact Or.inl hm
          · exact Or.inr hm
          · exact absurd hm hmn
      · simp only [Family.numbers, List.map_append, List.map_cons, List.map_nil, List.cons_append]

/-- A thread that ends gives no number out. -/
theorem InTable.exit (h : InTable main d u t f) (p : Nat)
    (hrun : threadStep main (.exit p) f = .ok f') :
    InTable main d u t f' ∧ f'.numbers.Sublist f.numbers := by
  cases hrun
  have hsub : (f.threads.filter fun x => x.1 ≠ p).Sublist f.threads := List.filter_sublist
  have hnumbers : (0 :: (f.threads.filter fun x => x.1 ≠ p).map Prod.snd).Sublist f.numbers :=
    (hsub.map Prod.snd).cons_cons 0
  exact ⟨⟨h.ledger, h.table, h.count, h.main, fun x hx => h.shared x (hsub.subset hx),
    fun x hx => h.bound x (hsub.subset hx), fun n hn => h.there n (hnumbers.subset hn)⟩, hnumbers⟩

/-- One step. -/
theorem InTable.step (h : InTable main d u t f) (hnodup : f.numbers.Nodup) {e : ThreadCall}
    (hrun : threadStep main e f = .ok f') :
    InTable main d u t f' ∧ (NewNumber f e → f'.numbers.Nodup) := by
  cases e with
  | create c p stack =>
      obtain ⟨hin, hnumbers⟩ := h.create p stack hrun
      refine ⟨hin, fun hnew => ?_⟩
      rw [hnumbers, List.nodup_append]
      refine ⟨hnodup, List.nodup_singleton _, fun a ha b hb hab => ?_⟩
      rw [List.mem_singleton.1 hb] at hab
      rcases List.mem_cons.1 ha with rfl | ha
      · omega
      · exact hnew (hab ▸ ha)
  | exit p =>
      obtain ⟨hin, hsub⟩ := h.exit p hrun
      exact ⟨hin, fun _ => hsub.nodup hnodup⟩

/-! ## A process that has just been started -/

/-- `do_exec` up to the page of the user stack. -/
def execStack (p : Nat) (stack : Nat → Pte) (s : State) : Except Stop (Nat × State) := do
  let s := setProc p ⟨true, 0, 0, maxPagetableNum, []⟩ s
  let (id, s) ← allocPagetable p .unswapable s
  let pgdir := (s.pages id).kva
  let s := setProc p { s.procs p with pgdir := pgdir } s
  let s := sharePgtable pgdir (clearPgdir pgdir s)
  let (id, s) ← allocPagetable p .unswapable s
  let s := setContent (s.pages id).kva stack s
  allocPageHelper (userStackAddr - 4096) p .unswapable s

/-- `do_exec` makes the stack and then loads the image. -/
theorem doExec_eq (p : Nat) (stack args : Nat → Pte) (image : List (Nat × (Nat → Pte)))
    (s : State) : doExec p stack args image s =
      execStack p stack s >>= fun r => loadTaskImg p image (setContent r.1 args r.2) := by
  unfold doExec execStack
  simp only [bind_assoc]

/-- The stack of a new process has a page, and none of its pages can be evicted. -/
theorem execStack_page {root : Nat → Pte} {own : Owners} (hs : Sane root own s) (p : Nat)
    (stack : Nat → Pte) (hstack : User root (vpn2 (userStackAddr - 4096))) :
    Holds AnyStop (fun r => ∃ own' x k, Sane root own' r.2 ∧ Pinned own' r.2 p ∧
      own' x = some (p, some []) ∧ own' k = some (p, some (pathOf (userStackAddr - 4096))) ∧
      r.1 = (r.2.pages k).kva) (execStack p stack s) := by
  unfold execStack
  refine Holds.bind (doExec_started hs p) fun r hA => ?_
  refine Holds.bind (stack_page hA.sane p stack) fun r₂ hB => ?_
  obtain ⟨hs₂, hg₂, -⟩ := hB
  have hd₂ := hg₂.kept _ _ hA.dir
  have hpin₂ := hA.pinned.grows hg₂
  refine (allocPageHelper_paged hs₂ hd₂ hstack hpin₂).mono fun r₃ hC => ?_
  obtain ⟨own₃, k, hP⟩ := hC
  exact ⟨own₃, _, k, hP.sane, hpin₂.grows hP.grows, hP.grows.kept _ _ hd₂, hP.page, hP.kva⟩

/-- `do_exec` leaves the table of the stacks with the stack of the process. -/
theorem doExec_stack {root : Nat → Pte} {own : Owners} (hs : Sane root own s) (p : Nat)
    (stack args : Nat → Pte) {image : List (Nat × (Nat → Pte))}
    (hstack : User root (vpn2 (userStackAddr - 4096)))
    (himage : ∀ c ∈ image, User root (vpn2 c.1)) :
    Holds AnyStop (fun s' => ∃ own' x k, Sane root own' s' ∧ Pinned own' s' p ∧
      own' x = some (p, some []) ∧ own' k = some (p, some (pathOf (userStackAddr - 4096))))
      (doExec p stack args image s) := by
  rw [doExec_eq]
  refine Holds.bind (execStack_page hs p stack hstack) fun r hA => ?_
  obtain ⟨own₁, x, k, hs₁, hpin₁, hx, hk, hkva⟩ := hA
  have hw : Writes (r.2.pages k).kva r.2 (setContent r.1 args r.2) := by
    rw [hkva]
    exact writes_setContent _ _ _
  have hs₂ := hs₁.write hk (hpin₁.res hk) hw
  have hpin₂ : Pinned own₁ (setContent r.1 args r.2) p := hpin₁
  refine (loadTaskImg_sane image hs₂ hx himage hpin₂).mono fun s' h => ?_
  obtain ⟨own₂, hs', hg, -⟩ := h
  exact ⟨own₂, x, k, hs', hpin₂.grows hg, hg.kept _ _ hx, hg.kept _ _ hk⟩

/-- Its entries for stacks are in a table of its own. -/
theorem Shape.stackTable {root : Nat → Pte} {own : Owners} (h : Shape root own s)
    (hpin : Pinned own s p) {x k : Nat} (hx : own x = some (p, some []))
    (hk : own k = some (p, some (pathOf (userStackAddr - 4096)))) :
    ∃ u t, StackTable (s.procs p).pgdir u t s ∧ (s.mem t 15).has present = true := by
  have hpath : pathOf (userStackAddr - 4096) = [15, vpn1 userStackAddr, vpn2 userStackAddr] := by
    decide
  rw [hpath] at hk
  obtain ⟨-, -, t, ht⟩ := h.parent k p _ _ hk
  obtain ⟨-, -, u, hu⟩ := h.parent t p _ _ ht
  have hdir := h.dir x p hx
  have hres {y : Nat} {π : List Nat} (hy : own y = some (p, some π)) : Res s y := hpin.res hy
  have hne {y : Nat} {π : List Nat} (hy : own y = some (p, some π)) : own y ≠ none := by
    rw [hy]
    simp
  have hlow {y : Nat} {π : List Nat} (hy : own y = some (p, some π)) :
      (s.pages y).kva < s.kernMemCurr := (h.frame y (hne hy) (hres hy)).2.2
  have hapart {y z : Nat} {π π' : List Nat} (hy : own y = some (p, some π))
      (hz : own z = some (p, some π')) (hkva : (s.pages y).kva = (s.pages z).kva) : π = π' := by
    have hyz := h.frame_inj y z (hne hy) (hne hz) (hres hy) (hres hz) hkva
    rw [hyz, hz] at hy
    simpa using hy.symm
  have hentry (i : Nat) (hp : (s.mem (s.pages t).kva i).has present = true) :
      ∃ y, own y = some (p, some (i :: [vpn1 userStackAddr, vpn2 userStackAddr])) ∧
        pageOf (s.mem (s.pages t).kva i) = (s.pages y).kva := by
    rcases h.slot t p _ i ht (by simp) (by simp) with ⟨hor, -⟩ | ⟨y, hy, hf⟩
    · rcases hor with ⟨habs, -⟩ | ⟨-, hshared⟩
      · rw [habs] at hp
        cases hp
      · exact absurd hshared (hpin.not_shared _)
    · rcases hf with ⟨-, -, hpage, -⟩ | ⟨hout, -⟩
      · exact ⟨y, hy, hpage⟩
      · exact absurd (hres hy) hout
  refine ⟨(s.pages u).kva, (s.pages t).kva,
    ⟨?_, ?_, ⟨fun hc => ?_, fun hc => ?_⟩, ⟨?_, hlow hu, hlow ht⟩,
    fun i hp => ?_, fun i j hi hj heq => ?_⟩, ?_⟩
  · rw [hdir]
    exact h.filled_table hu hx (by simp)
  · exact h.filled_table ht hu (by simp)
  · rw [hdir] at hc
    exact absurd (hapart hx ht hc) (by simp)
  · exact absurd (hapart hu ht hc) (by simp)
  · rw [hdir]
    exact hlow hx
  · obtain ⟨y, hy, hpage⟩ := hentry i hp
    rw [hpage]
    exact hlow hy
  · obtain ⟨y, hy, hpage⟩ := hentry i hi
    obtain ⟨z, hz, hpage'⟩ := hentry j hj
    have hlist := hapart hy hz (hpage.symm.trans (heq.trans hpage'))
    exact (List.cons.inj hlist).1
  · rcases h.filled hk ht with ⟨-, hp, -⟩ | ⟨hout, -⟩
    · exact hp
    · exact absurd (hres hk) hout

/-- **The stacks of threads.**  From a process that has just been started, in any run in which
every caller's next number is not that of a thread that lives, the stacks are apart in every
state reached; and there the next creation leaves them apart if and only if the number is a new
one again. -/
theorem thread_stacks_apart {s₀ s s₁ : State} (hboot : Booted s₀) {es : List Event}
    (hes : ∀ e ∈ es, UserEvent (s₀.mem (pa2kva pgdirPa)) e) (hrun : run handle es s₀ = .ok s)
    {main : Nat} {stack args : Nat → Pte} {image : List (Nat × (Nat → Pte))}
    (hexec : doExec main stack args image s = .ok s₁)
    (huser : UserEvent (s₀.mem (pa2kva pgdirPa)) (.exec main stack args image))
    {childnum : Nat → Nat} (hcount : ∀ c, childnum c ≤ s₁.pageId) {cs : List ThreadCall}
    (hnew : AllSteps (threadStep main) NewNumber cs ⟨s₁, childnum, []⟩) {f : Family}
    (hend : run (threadStep main) cs ⟨s₁, childnum, []⟩ = .ok f) :
    StacksApart (s₁.procs main).pgdir f ∧
    ∀ c p stack f', threadStep main (.create c p stack) f = .ok f' →
      (StacksApart (s₁.procs main).pgdir f' ↔ NewNumber f (.create c p stack)) := by
  obtain ⟨⟨own, hsane, -⟩, -⟩ := run_good hboot hes hrun
  obtain ⟨own₁, x, k, hsane₁, hpin, hx, hk⟩ :=
    (doExec_stack hsane main stack args huser.1 huser.2).of_ok hexec
  obtain ⟨u, t, htable, hthere⟩ := hsane₁.shape.stackTable hpin hx hk
  have hled : Ledger 0 s₁ := by
    have hs : Ledger 0 s := run_invariant (I := Ledger 0) (C := fun _ _ => True)
      (fun s e _ h _ hs' => (handle_ledger h e).of_ok hs') es s₀ s hboot.ledger
      (allSteps_true es s₀) hrun
    exact (doExec_ledger hs main stack args image).of_ok hexec
  have hstart : InTable main (s₁.procs main).pgdir u t ⟨s₁, childnum, []⟩ := by
    refine ⟨⟨0, Nat.zero_le _, hled⟩, htable, hcount, rfl, nofun, nofun, fun n hn => ?_⟩
    rw [List.mem_singleton.1 hn]
    exact hthere
  have hkeep : InTable main (s₁.procs main).pgdir u t f ∧ f.numbers.Nodup :=
    run_invariant (I := fun f => InTable main (s₁.procs main).pgdir u t f ∧ f.numbers.Nodup)
      (fun f e f' h hc hstep => ⟨(h.1.step h.2 hstep).1, (h.1.step h.2 hstep).2 hc⟩) cs _ f
      ⟨hstart, List.nodup_singleton 0⟩ hnew hend
  obtain ⟨hin, hnodup⟩ := hkeep
  refine ⟨hin.apart_iff.2 hnodup, fun c p stack f' hstep => ?_⟩
  obtain ⟨hin', hnumbers⟩ := hin.create p stack hstep
  rw [hin'.apart_iff]
  refine ⟨fun hnodup' hmem => ?_, (hin.step hnodup hstep).2⟩
  rw [hnumbers, List.nodup_append] at hnodup'
  exact hnodup'.2.2 _ (List.mem_cons_of_mem 0 hmem) _ (List.mem_singleton_self _) rfl

/-- The process creates two threads, the first ends, and it creates another one. -/
def ownThreads : List ThreadCall :=
  [.create 1 2 blank, .create 1 3 blank, .exit 2, .create 1 2 blank]

/-- Two threads, one of which ends, and a third. -/
theorem thread_stacks_apart_own : ∃ s₁ f, doExec 1 blank blank [] bootState = .ok s₁ ∧
    run (threadStep 1) ownThreads ⟨s₁, fun _ => 0, []⟩ = .ok f ∧ f.threads = [(3, 2), (2, 3)] ∧
    StacksApart (s₁.procs 1).pgdir f := by
  have hok : returns (fun s => AllSteps (threadStep 1) NewNumber ownThreads ⟨s, fun _ => 0, []⟩ ∧
      returns (fun f => f.threads = [(3, 2), (2, 3)])
        (run (threadStep 1) ownThreads ⟨s, fun _ => 0, []⟩) = true)
      (doExec 1 blank blank [] bootState) = true := by decide +kernel
  obtain ⟨s₁, hexec, hnew, hrun⟩ := exists_of_returns hok
  obtain ⟨f, hf, hthreads⟩ := exists_of_returns hrun
  have hnone : ∀ e ∈ ([] : List Event), UserEvent (bootState.mem (pa2kva pgdirPa)) e := nofun
  exact ⟨s₁, f, hexec, hf, hthreads, (thread_stacks_apart bootState_booted hnone rfl hexec
    (by decide +kernel) (fun _ => Nat.zero_le _) hnew hf).1⟩

/-- A thread that creates a thread: both have number 1 and the same stack. -/
theorem nested_thread_shares_stack : ∃ s₁ f, doExec 1 blank blank [] bootState = .ok s₁ ∧
    run (threadStep 1) [.create 1 2 blank, .create 2 3 blank] ⟨s₁, fun _ => 0, []⟩ = .ok f ∧
    f.threads = [(2, 1), (3, 1)] ∧ ¬StacksApart (s₁.procs 1).pgdir f := by
  have hok : returns (fun s => returns (fun f => f.threads = [(2, 1), (3, 1)])
        (run (threadStep 1) [.create 1 2 blank, .create 2 3 blank] ⟨s, fun _ => 0, []⟩) = true)
      (doExec 1 blank blank [] bootState) = true := by decide +kernel
  obtain ⟨s₁, hexec, hrun⟩ := exists_of_returns hok
  obtain ⟨f, hf, hthreads⟩ := exists_of_returns hrun
  refine ⟨s₁, f, hexec, hf, hthreads, fun happart => ?_⟩
  have hnodup := happart.pages
  unfold Family.numbers at hnodup
  rw [hthreads] at hnodup
  exact absurd hnodup (by decide)

end Mm
