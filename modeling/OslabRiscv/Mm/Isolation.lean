import OslabRiscv.Mm.Confinement
import OslabRiscv.Mm.Overlay

/-!
# Isolation of page faults

A page fault of one process writes to frames of that process only, and leaves the translation of
every address by every other process as it was.  No entry above the last level of a process's own
tables is a leaf, so a walk at a user address goes through tables only.
-/

namespace Mm

open Outcome

variable {root : Nat → Pte} {own own' : Owners} {s s' : State} {p q id k t i va : Nat}

/-! ## Tables have no leaves -/

/-- No permission bit is set: the hardware takes the entry for a pointer to a table. -/
def NoLeaf (e : Pte) : Prop := e.has (read ||| write ||| exec) = false

instance (e : Pte) : Decidable (NoLeaf e) := inferInstanceAs (Decidable (_ = _))

/-- Above the last level there is no leaf, and the kernel's part of a root table is a copy. -/
def TableWord (root : Nat → Pte) (n i : Nat) (e : Pte) : Prop :=
  (n = 0 → if User root i then NoLeaf e else e = root i) ∧ (n = 1 → NoLeaf e)

/-- The entry of a table is no leaf. -/
theorem noLeaf_table {e : Pte} (h : NoLeaf e) (pfn : Nat) :
    NoLeaf (setAttribute (present ||| user) (setPfn pfn e)) := by
  refine has_eq_false.mpr ?_
  have hbits : ∀ a : BitVec 10, a &&& (read ||| write ||| exec) = 0 →
      (a ||| (present ||| user)) &&& (read ||| write ||| exec) = 0 := by decide +kernel
  exact hbits _ (has_eq_false.mp h)

/-- Any word may stand in a table of the last level. -/
theorem tableWord_last (i : Nat) (e : Pte) : TableWord root 2 i e :=
  ⟨fun h => absurd h (by decide), fun h => absurd h (by decide)⟩

/-- The rule about words is kept by tables, pages and evictions. -/
theorem tableWord_rules (hunused : ∀ i, User root i → NoLeaf (root i)) :
    WordRules root (TableWord root) := by
  constructor
  case top =>
    intro i
    refine ⟨fun _ => ?_, fun h => absurd h (by decide)⟩
    split_ifs with hu
    · exact hunused i hu
    · rfl
  case blank =>
    intro n i hn
    exact ⟨fun hcon => absurd hcon (by omega), fun _ => by decide⟩
  case table =>
    intro n i e pfn _ hu hw
    refine ⟨fun h0 => ?_, fun h1 => noLeaf_table (hw.2 h1) pfn⟩
    have hword := hw.1 h0
    rw [if_pos (hu h0)] at hword ⊢
    exact noLeaf_table hword pfn
  case leaf => exact fun i _ _ _ => tableWord_last i _
  case out => exact fun i _ _ _ _ _ => tableWord_last i _
  case back => exact fun i _ _ _ _ _ => tableWord_last i _
  case touch => exact fun i _ _ _ _ => tableWord_last i _

/-- What the kernel maps for itself: its root table leads to tables of its own, all entries of
which are leaves. -/
structure KernelMap (m : Nat → Nat → Pte) : Prop where
  unused : ∀ i, User (m (pa2kva pgdirPa)) i → NoLeaf (m (pa2kva pgdirPa) i)
  low : ∀ i, ¬ User (m (pa2kva pgdirPa)) i → pageOf (m (pa2kva pgdirPa) i) < freememKernel
  leaves : ∀ i j, ¬ User (m (pa2kva pgdirPa)) i →
    (m (pageOf (m (pa2kva pgdirPa) i)) j).has present = true →
      ¬ NoLeaf (m (pageOf (m (pa2kva pgdirPa) i)) j)

/-- `setup_vm` maps the kernel's memory and the boot addresses in pages of 2 MB. -/
theorem setupVm_map : KernelMap setupVm := by
  have htop : ∀ i, setupVm (pa2kva pgdirPa) i =
      if i = 257 then ⟨(pgdirPa + 0x1000) / 4096, present⟩
      else if i = 1 then ⟨(pgdirPa + 0x2000) / 4096, present⟩
      else ⟨0, 0⟩ := by
    intro i
    unfold setupVm
    exact if_pos rfl
  have hused : ∀ i, ¬ User (setupVm (pa2kva pgdirPa)) i → i = 257 ∨ i = 1 := by
    intro i hu
    by_contra hcon
    push Not at hcon
    refine hu ?_
    unfold User
    rw [htop, if_neg hcon.1, if_neg hcon.2]
    decide
  have hlarge : ∀ pfn, ¬ NoLeaf
      ⟨pfn, present ||| read ||| write ||| exec ||| accessed ||| dirty⟩ := by
    intro pfn h
    have hbits : (present ||| read ||| write ||| exec ||| accessed ||| dirty) &&&
        (read ||| write ||| exec) ≠ 0 := by decide
    exact hbits (has_eq_false.mp h)
  refine ⟨fun i _ => ?_, fun i hu => ?_, fun i j hu hp => ?_⟩
  · rw [htop]
    split_ifs
    · decide
    · decide
    · decide
  · rcases hused i hu with rfl | rfl
    · decide
    · decide
  · rcases hused i hu with rfl | rfl
    · have hpage : pageOf (setupVm (pa2kva pgdirPa) 257) = pa2kva (pgdirPa + 0x1000) := by decide
      rw [hpage] at hp ⊢
      have hword : setupVm (pa2kva (pgdirPa + 0x1000)) j = if 128 ≤ j ∧ j < 256 then
          ⟨(0x50000000 + (j - 128) * 0x200000) / 4096,
            present ||| read ||| write ||| exec ||| accessed ||| dirty⟩ else ⟨0, 0⟩ := by
        unfold setupVm
        rw [if_neg (by decide), if_pos rfl]
      rw [hword] at hp ⊢
      split_ifs at hp ⊢ with hj
      · exact hlarge _
      · exact absurd hp (by decide)
    · have hpage : pageOf (setupVm (pa2kva pgdirPa) 1) = pa2kva (pgdirPa + 0x2000) := by decide
      rw [hpage] at hp ⊢
      have hword : setupVm (pa2kva (pgdirPa + 0x2000)) j = if 128 ≤ j ∧ j < 136 then
          ⟨(0x50000000 + (j - 128) * 0x200000) / 4096,
            present ||| read ||| write ||| exec ||| accessed ||| dirty⟩ else ⟨0, 0⟩ := by
        unfold setupVm
        rw [if_neg (by decide), if_neg (by decide), if_pos rfl]
      rw [hword] at hp ⊢
      split_ifs at hp ⊢ with hj
      · exact hlarge _
      · exact absurd hp (by decide)

/-! ## The invariant -/

/-- Between two events: the tables of every process are its own, and the kernel's memory below the
pages it hands out is as it was at boot. -/
structure Separate (m : Nat → Nat → Pte) (s : State) : Prop where
  good : Good (m (pa2kva pgdirPa)) s
  unshared : Unshared s
  words : Words (TableWord (m (pa2kva pgdirPa))) (m (pa2kva pgdirPa)) s
  kernel : ∀ t i, t < freememKernel → s.mem t i = m t i

/-- The kernel's memory is not written. -/
theorem Confined.low (hC : Confined p s s') (h' : Shape root own' s') (ht : t < freememKernel) :
    s'.mem t i = s.mem t i := by
  by_contra hne
  have hlow := (h'.hasFrame_given (hC.mem t i hne)).1
  omega

/-- After boot there is no process to keep apart. -/
theorem Booted.separate (h : Booted s) : Separate s.mem s := by
  refine ⟨h.good, h.unshared, fun own _ id p π i hlive => ?_, fun _ _ _ => rfl⟩
  rw [h.procs] at hlive
  cases hlive

/-- The step lemma of separation. -/
theorem handle_separate {m : Nat → Nat → Pte} (hm : KernelMap m) {e : Event} (hg : Separate m s)
    (he : UserEvent (m (pa2kva pgdirPa)) e) : Holds AnyStop (Separate m) (handle e s) := by
  obtain ⟨⟨own, hs, hr⟩, hun, hw, hkernel⟩ := hg
  have hrules := tableWord_rules hm.unused
  have hgood := handle_good ⟨own, hs, hr⟩ hun he
  have hend : ∀ p, ∀ s₀ : State, s₀.mem = s.mem →
      Holds AnyStop (fun s' => Words (TableWord (m (pa2kva pgdirPa))) (m (pa2kva pgdirPa)) s' ∧
        Confined p s₀ s') (handle e s) → Holds AnyStop (Separate m) (handle e s) := by
    intro p s₀ hmem hC
    refine (hgood.both hC).mono fun s' h => ?_
    obtain ⟨⟨⟨own', hs', hr'⟩, hun'⟩, hw', hC⟩ := h
    refine ⟨⟨own', hs', hr'⟩, hun', hw', fun t i ht => ?_⟩
    rw [hC.low hs'.shape ht, hmem]
    exact hkernel t i ht
  cases e with
  | exec p stack args image =>
      exact hend p (setProc p ⟨true, 0, 0, maxPagetableNum, []⟩ s) rfl
        (doExec_confined hs hr p stack args he.1 he.2 hrules hw)
  | load p va =>
      refine hend p s rfl ?_
      simp only [handle]
      split_ifs with hlive
      · exact handleLoadPageFault_confined hs hr hlive he hrules hw
      · exact ⟨hw, .refl p s⟩
  | store p va =>
      refine hend p s rfl ?_
      simp only [handle]
      split_ifs with hlive
      · exact handleStorePageFault_confined hs hr hun hlive he hrules hw
      · exact ⟨hw, .refl p s⟩
  | put p va word =>
      refine hend p s rfl ?_
      simp only [handle]
      split_ifs with hlive
      · exact put_confined hs hr hlive he hw word
      · exact ⟨hw, .refl p s⟩
  | snapshot p va => exact he.elim

/-- The run lemma, by induction. -/
theorem run_separate {s₀ : State} {es : List Event} (hboot : Booted s₀) (hm : KernelMap s₀.mem)
    (hes : ∀ e ∈ es, UserEvent (s₀.mem (pa2kva pgdirPa)) e) (hrun : run handle es s₀ = .ok s) :
    Separate s₀.mem s := by
  have hall : ∀ (es : List Event) (s t : State), (∀ e ∈ es, UserEvent (s₀.mem (pa2kva pgdirPa)) e) →
      Separate s₀.mem s → run handle es s = .ok t → Separate s₀.mem t := by
    intro es
    induction es with
    | nil =>
        intro s t _ hg hrun
        cases hrun
        exact hg
    | cons e es ih =>
        intro s t hes hg hrun
        obtain ⟨s₁, hs₁, hrest⟩ := run_cons hrun
        exact ih s₁ t (fun e' he' => hes e' (List.mem_cons_of_mem _ he'))
          ((handle_separate hm hg (hes e List.mem_cons_self)).of_ok hs₁) hrest
  exact hall es s₀ s hes hboot.separate hrun

/-! ## Isolation -/

/-- A translation reads three words. -/
theorem translate_congr (h2 : s'.mem t (vpn2 va) = s.mem t (vpn2 va))
    (h1 : (s.mem t (vpn2 va)).has present = true →
      s'.mem (pageOf (s.mem t (vpn2 va))) (vpn1 va) = s.mem (pageOf (s.mem t (vpn2 va))) (vpn1 va))
    (h0 : (s.mem t (vpn2 va)).has present = true →
      (s.mem (pageOf (s.mem t (vpn2 va))) (vpn1 va)).has present = true →
      NoLeaf (s.mem (pageOf (s.mem t (vpn2 va))) (vpn1 va)) →
      s'.mem (pageOf (s.mem (pageOf (s.mem t (vpn2 va))) (vpn1 va))) (vpn0 va) =
        s.mem (pageOf (s.mem (pageOf (s.mem t (vpn2 va))) (vpn1 va))) (vpn0 va)) :
    translate va t s' = translate va t s := by
  unfold translate
  rw [h2]
  by_cases htop : (s.mem t (vpn2 va)).has present = true
  · simp only [h1 htop]
    by_cases hsecond : (s.mem (pageOf (s.mem t (vpn2 va))) (vpn1 va)).has present = true
    · by_cases hleaf : NoLeaf (s.mem (pageOf (s.mem t (vpn2 va))) (vpn1 va))
      · rw [h0 htop hsecond hleaf]
      · have hstop := (Bool.not_eq_false _).mp hleaf
        simp only [hstop, if_true]
    · simp only [hsecond, Bool.not_false, if_true]
  · simp only [htop, Bool.not_false, if_true]

/-- What a page fault of `p` leaves to the others, and where it writes. -/
structure Isolated (p : Nat) (s s' : State) : Prop where
  others : ∀ q, (s.procs q).live = true → (s.procs q).pgdir ≠ (s.procs p).pgdir →
    ∀ va, translate va (s'.procs q).pgdir s' = translate va (s.procs q).pgdir s
  frames : ∀ t i, s'.mem t i ≠ s.mem t i → HasFrame p s' t

/-- On the walks of `pte_checker` and of `alloc_page_helper`, whose first step may make a table,
no leaf is taken for a table. -/
structure WalksTables (p va : Nat) (s : State) : Prop where
  top : (s.mem (s.procs p).pgdir (vpn2 va)).has present = true →
    NoLeaf (s.mem (s.procs p).pgdir (vpn2 va))
  checked : (s.mem (s.procs p).pgdir (vpn2 va)).has present = true →
    (s.mem (pageOf (s.mem (s.procs p).pgdir (vpn2 va))) (vpn1 va)).has present = true →
      NoLeaf (s.mem (pageOf (s.mem (s.procs p).pgdir (vpn2 va))) (vpn1 va))
  made : ∀ second s₁, tableAt p (s.procs p).pgdir (vpn2 va) s = .ok (second, s₁) →
    (s₁.mem second (vpn1 va)).has present = true → NoLeaf (s₁.mem second (vpn1 va))

variable {m : Nat → Nat → Pte}

/-- The tables of another process are not written. -/
theorem Confined.table_same (hC : Confined p s s') (h : Shape root own s) {π : List Nat}
    (hid : own id = some (q, some π)) (hπ : π.length ≤ 2) (hqp : q ≠ p) (j : Nat) :
    s'.mem (s.pages id).kva j = s.mem (s.pages id).kva j := by
  by_contra hne
  rcases hC.new _ (hC.mem _ j hne) with hf | hlt
  · exact h.frame_alone hid hπ hqp hf
  · have hgiven := (h.frame id (by rw [hid]; simp) (h.table_res hid hπ)).2.2
    omega

/-- What others translate is the same after a confined step. -/
theorem Separate.others (hm : KernelMap m) (hg : Separate m s) (hg' : Separate m s')
    (hC : Confined p s s') (hlive : (s.procs q).live = true) (hqp : q ≠ p) (va : Nat) :
    translate va (s.procs q).pgdir s' = translate va (s.procs q).pgdir s := by
  obtain ⟨⟨own, hs, hr⟩, _, hw, hkernel⟩ := hg
  have h := hs.shape
  obtain ⟨d, hd⟩ := hr q hlive
  have hword := (hw own h d q [] (vpn2 va) hlive hd (by simp)).1 rfl
  rw [h.dir d q hd]
  by_cases hu : User (m (pa2kva pgdirPa)) (vpn2 va)
  · -- the walk goes through tables of `q`
    have hsecond : (s.mem (s.pages d).kva (vpn2 va)).has present = true →
        ∃ k, own k = some (q, some [vpn2 va]) ∧
          pageOf (s.mem (s.pages d).kva (vpn2 va)) = (s.pages k).kva := by
      intro hp
      obtain ⟨k, hk⟩ := h.linked hd (by simp) (fun _ => hu) hp
      exact ⟨k, hk, (h.filled_table hk hd (by simp)).2⟩
    refine translate_congr (hC.table_same h hd (by simp) hqp _) (fun hp => ?_) fun hp hp' _ => ?_
    · obtain ⟨k, hk, hpage⟩ := hsecond hp
      rw [hpage]
      exact hC.table_same h hk (by simp) hqp _
    · obtain ⟨k, hk, hpage⟩ := hsecond hp
      rw [hpage] at hp' ⊢
      obtain ⟨l, hl⟩ := h.linked hk (by simp) (by simp) hp'
      rw [(h.filled_table hl hk (by simp)).2]
      exact hC.table_same h hl (by simp) hqp _
  · -- it ends in the kernel's own tables
    rw [if_neg hu] at hword
    have hlow := hm.low _ hu
    refine translate_congr (hC.table_same h hd (by simp) hqp _) (fun _ => ?_) fun _ hp' hno => ?_
    · rw [hword, hg'.kernel _ _ hlow, hkernel _ _ hlow]
    · rw [hword, hkernel _ _ hlow] at hp' hno
      exact absurd hno (hm.leaves _ _ hu hp')

/-- On the walks of a process there are tables only. -/
theorem Separate.walks (hm : KernelMap m) (hg : Separate m s) (hlive : (s.procs p).live = true)
    (hu : User (m (pa2kva pgdirPa)) (vpn2 va)) : WalksTables p va s := by
  obtain ⟨⟨own, hs, hr⟩, _, hw, _⟩ := hg
  have h := hs.shape
  obtain ⟨d, hd⟩ := hr p hlive
  have htop := (hw own h d p [] (vpn2 va) hlive hd (by simp)).1 rfl
  rw [if_pos hu] at htop
  have hmade : ∀ second s₁, tableAt p (s.procs p).pgdir (vpn2 va) s = .ok (second, s₁) →
      NoLeaf (s₁.mem second (vpn1 va)) := by
    intro second s₁ hret
    rw [h.dir d p hd] at hret
    have hspec := (tableAt_table hs hd (by simp) fun _ => hu).both
      (tableAt_confined hs hr hd (by simp) (fun _ => hu) (tableWord_rules hm.unused) hw)
    obtain ⟨⟨own₁, x, hT⟩, hw₁, _⟩ := hspec.of_ok hret
    have hlive₁ : (s₁.procs p).live = true := (hT.grows.procs p).2.trans hlive
    have hkva : second = (s₁.pages x).kva := hT.kva
    rw [hkva]
    exact (hw₁ own₁ hT.sane.shape x p [vpn2 va] (vpn1 va) hlive₁ hT.table (by simp)).2 rfl
  refine ⟨fun _ => ?_, fun hp _ => hmade _ s ?_, fun second s₁ hret _ => hmade second s₁ hret⟩
  · rw [h.dir d p hd]
    exact htop
  · unfold tableAt
    rw [if_pos hp]

/-- **Page faults are isolated** in every state of every run from boot in which processes and
faults keep to addresses that the kernel does not use. -/
theorem faults_isolated {s₀ : State} {es : List Event} (hboot : Booted s₀) (hm : KernelMap s₀.mem)
    (hes : ∀ e ∈ es, UserEvent (s₀.mem (pa2kva pgdirPa)) e) (hrun : run handle es s₀ = .ok s)
    (hlive : (s.procs p).live = true) (hu : User (s₀.mem (pa2kva pgdirPa)) (vpn2 va)) :
    WalksTables p va s ∧ (∀ s', handleLoadPageFault p va s = .ok s' → Isolated p s s') ∧
      ∀ s', handleStorePageFault p va s = .ok s' → Isolated p s s' := by
  have hg := run_separate hboot hm hes hrun
  obtain ⟨⟨own, hs, hr⟩, hun, hw, _⟩ := id hg
  have hrules := tableWord_rules hm.unused
  have hend : ∀ e : Event, UserEvent (s₀.mem (pa2kva pgdirPa)) e → ∀ s', handle e s = .ok s' →
      Steady own s s' → Confined p s s' → Isolated p s s' := by
    intro e he s' hret hst hC
    have hg' := (handle_separate hm hg he).of_ok hret
    refine ⟨fun q hq hne va' => ?_, hC.mem⟩
    rw [(hst.procs q).1]
    exact hg.others hm hg' hC hq (fun hcon => hne (by rw [hcon])) va'
  refine ⟨hg.walks hm hlive hu, fun s' hret => ?_, fun s' hret => ?_⟩
  · refine hend (.load p va) hu s' ?_ ((handleLoadPageFault_steady hs hr hlive hu).of_ok hret)
      ((handleLoadPageFault_confined hs hr hlive hu hrules hw).of_ok hret).2
    simp only [handle, hlive, if_true]
    exact hret
  · refine hend (.store p va) hu s' ?_ ((handleStorePageFault_steady hs hr hun hlive hu).of_ok hret)
      ((handleStorePageFault_confined hs hr hun hlive hu hrules hw).of_ok hret).2
    simp only [handle, hlive, if_true]
    exact hret

/-- Two processes, of which the first has used one more page. -/
def twoProcesses : List Event :=
  [.exec 1 blank blank [(0x10000, blank)], .exec 2 blank blank [(0x10000, blank)], .load 1 0x20000]

/-- A fault of the second of two processes. -/
theorem faults_isolated_twoProcesses :
    ∃ s s', run handle twoProcesses bootState = .ok s ∧ WalksTables 2 0x20000 s ∧
      handleLoadPageFault 2 0x20000 s = .ok s' ∧ Isolated 2 s s' := by
  have hrun : returns (fun s => (s.procs 2).live = true ∧
      returns (fun _ => True) (handleLoadPageFault 2 0x20000 s) = true)
      (run handle twoProcesses bootState) = true := by decide +kernel
  obtain ⟨s, hs, hlive, hret⟩ := exists_of_returns hrun
  obtain ⟨s', hs', -⟩ := exists_of_returns hret
  have hu : User (bootState.mem (pa2kva pgdirPa)) (vpn2 0x20000) := by decide
  obtain ⟨hwalks, hload, -⟩ := faults_isolated bootState_booted setupVm_map (by decide +kernel) hs
    hlive hu
  exact ⟨s, s', hs, hwalks, hs', hload s' hs'⟩

/-- A load from the kernel's memory: its 2 MB page is taken for a table, and an entry is written
into it. -/
theorem fault_not_isolated :
    ∃ s s', run handle [.exec 1 blank blank [(0x10000, blank)]] bootState = .ok s ∧
      handleLoadPageFault 1 0xffffffc050000000 s = .ok s' ∧
      ¬ WalksTables 1 0xffffffc050000000 s ∧ ¬ Isolated 1 s s' := by
  have hrun : returns (fun s =>
      ((s.mem (s.procs 1).pgdir (vpn2 0xffffffc050000000)).has present = true ∧
        (s.mem (pageOf (s.mem (s.procs 1).pgdir (vpn2 0xffffffc050000000)))
          (vpn1 0xffffffc050000000)).has present = true ∧
        ¬ NoLeaf (s.mem (pageOf (s.mem (s.procs 1).pgdir (vpn2 0xffffffc050000000)))
          (vpn1 0xffffffc050000000))) ∧
      returns (fun s' => s'.mem (pa2kva 0x50000000) 0 ≠ s.mem (pa2kva 0x50000000) 0 ∧
          ∀ k ∈ (s'.procs 1).pagehead, (s'.pages k).kva ≠ pa2kva 0x50000000)
        (handleLoadPageFault 1 0xffffffc050000000 s) = true)
      (run handle [.exec 1 blank blank [(0x10000, blank)]] bootState) = true := by decide +kernel
  obtain ⟨s, hs, ⟨htop, hsecond, hleaf⟩, hret⟩ := exists_of_returns hrun
  obtain ⟨s', hs', hne, hno⟩ := exists_of_returns hret
  refine ⟨s, s', hs, hs', fun hwalks => hleaf (hwalks.checked htop hsecond), fun hiso => ?_⟩
  obtain ⟨k, hk, -, hkva⟩ := hiso.frames _ _ hne
  exact hno k hk hkva

end Mm
