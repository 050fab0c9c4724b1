import OslabRiscv.Mm.Overlay
import OslabRiscv.Mm.Attachments

/-!
# Keys of shared pages

All callers of `shm_page_get` with one key get one page, and callers with different keys
different ones, over every run of attaches and page faults in which keys fit into their
field and every page is put at an address that has none.  The entries for shared pages lie
over page tables that satisfy the invariant without them, and each of them has been returned.
-/

namespace Mm

open Outcome

/-- An address that `shm_page_get` has returned, with the key it was asked for. -/
structure Grant where
  process : Nat
  addr : Nat
  key : Int
  deriving DecidableEq, Repr

/-- The shared pages, and all addresses that have been returned. -/
structure Keyed where
  vm : Vm
  granted : List Grant

inductive KeyEvent
  | get (p : Nat) (key : Int)
  | load (p stval : Nat)
  | store (p stval : Nat)

def keyStep : KeyEvent → Keyed → Except Stop Keyed
  | .get p key, d => do
    let (addr, v) ← shmPageGet p key d.vm
    .ok ⟨v, ⟨p, addr, key⟩ :: d.granted⟩
  | .load p stval, d => do
    let s ← handle (.load p stval) d.vm.state
    .ok { d with vm := { d.vm with state := s } }
  | .store p stval, d => do
    let s ← handle (.store p stval) d.vm.state
    .ok { d with vm := { d.vm with state := s } }

/-- What has been returned for a key is the page `P` of the key, different keys have different
pages, and a process has the page of a key only where it has been returned for it. -/
structure KeysAgree (root : Nat → Pte) (P : Int → Nat) (d : Keyed) : Prop where
  mapped : ∀ g ∈ d.granted, pageAt d.vm.state g.process g.addr = some (P g.key)
  differ : ∀ g ∈ d.granted, ∀ g' ∈ d.granted, P g.key = P g'.key → g.key = g'.key
  alone : ∀ g ∈ d.granted, ∀ q va, (d.vm.state.procs q).live = true → User root (vpn2 va) →
    pageAt d.vm.state q va = some (P g.key) →
      ∃ g' ∈ d.granted, g'.key = g.key ∧ g'.process = q ∧ pathOf g'.addr = pathOf va

/-- The caller is a process. -/
def Calls (d : Keyed) : KeyEvent → Prop
  | .get p _ => (d.vm.state.procs p).live = true
  | .load _ _ | .store _ _ => True

instance (d : Keyed) : ∀ c, Decidable (Calls d c)
  | .get p _ => (inferInstance : Decidable ((d.vm.state.procs p).live = true))
  | .load _ _ => instDecidableTrue
  | .store _ _ => instDecidableTrue

/-- A key has at most 16 bits, the address that is next has no page yet, and all addresses are of
the user part. -/
def KeyFits (root : Nat → Pte) (d : Keyed) : KeyEvent → Prop
  | .get p key => 0 ≤ key ∧ key < 2 ^ 16 ∧
    pteChecker (nextAddr d.vm p) (d.vm.state.procs p).pgdir d.vm.state = none ∧
    User root (vpn2 (nextAddr d.vm p))
  | .load _ stval | .store _ stval => User root (vpn2 stval)

instance (root : Nat → Pte) (d : Keyed) : ∀ c, Decidable (KeyFits root d c)
  | .get p key => (inferInstance : Decidable (0 ≤ key ∧ key < 2 ^ 16 ∧
      pteChecker (nextAddr d.vm p) (d.vm.state.procs p).pgdir d.vm.state = none ∧
      User root (vpn2 (nextAddr d.vm p))))
  | .load _ stval => (inferInstance : Decidable (User root (vpn2 stval)))
  | .store _ stval => (inferInstance : Decidable (User root (vpn2 stval)))

/-- No page is shared yet. -/
def openKeyed (s : State) (count : Nat → Nat) : Keyed :=
  ⟨⟨s, fun _ => ⟨false, 0, 0, 0⟩, count⟩, []⟩

variable {root : Nat → Pte} {own own' : Owners} {s s' : State} {l : List (Nat × Nat)}
  {c : Nat → Nat → Pte} {P : Int → Nat} {shm : Nat → Shm} {gs : List Grant}
  {p q k id x t i va pa kva : Nat} {π : List Nat} {st : PageStatus}

/-! ## The invariant -/

/-- The entry for a grant is one of `l`, in the table `id`. -/
structure Stands (root : Nat → Pte) (own : Owners) (s : State) (l : List (Nat × Nat))
    (c : Nat → Nat → Pte) (g : Grant) (pa id : Nat) : Prop where
  live : (s.procs g.process).live = true
  user : User root (vpn2 g.addr)
  table : own id = some (g.process, some [vpn1 g.addr, vpn2 g.addr])
  mem : ((s.pages id).kva, vpn0 g.addr) ∈ l
  leaf : Leaf (c (s.pages id).kva (vpn0 g.addr)) pa

/-- The entries for shared pages, over the state `s` that has none. -/
structure Agreed (root : Nat → Pte) (P : Int → Nat) (shm : Nat → Shm) (gs : List Grant)
    (own : Owners) (s : State) (l : List (Nat × Nat)) (c : Nat → Nat → Pte) : Prop where
  sane : Sane root own s
  rooted : Rooted own s
  unshared : Unshared s
  covers : Covers own l s
  page : ∀ k < numMaxShm, (shm k).valid = true → ∃ x q, own x = some (q, none) ∧
    (s.pages x).status = .unswapable ∧ (shm k).pa = kva2pa (s.pages x).kva
  inj : ∀ k < numMaxShm, ∀ k' < numMaxShm, (shm k).valid = true → (shm k').valid = true →
    (shm k).pa = (shm k').pa → k = k'
  named : ∀ k < numMaxShm, (shm k).valid = true → P (shm k).key = (shm k).pa
  granted : ∀ g ∈ gs, ∃ k < numMaxShm, (shm k).valid = true ∧ ((shm k).key : Int) = g.key ∧
    ∃ id, Stands root own s l c g (shm k).pa id
  back : ∀ e ∈ l, ∃ g ∈ gs, ∃ id pa, Stands root own s l c g pa id ∧
    e = ((s.pages id).kva, vpn0 g.addr)

/-- The walk to an entry that lies over the tables. -/
theorem Stands.pteChecker_eq {g : Grant} (h : Stands root own s l c g pa id)
    (hs : Shape root own s) (hc : Covers own l s) :
    pteChecker g.addr (s.procs g.process).pgdir (overlay l c s) =
      some ((s.pages id).kva, vpn0 g.addr) := by
  rw [(hc.leads (hs.leads h.table)).pteChecker, overlay_mem_of h.mem, h.leaf.there]
  rfl

/-- A grant reads the page that was granted. -/
theorem Stands.pageAt_eq {g : Grant} (h : Stands root own s l c g pa id)
    (hs : Shape root own s) (hc : Covers own l s) :
    pageAt (overlay l c s) g.process g.addr = some pa := by
  have hwalk : pteChecker g.addr ((overlay l c s).procs g.process).pgdir (overlay l c s) =
      some ((s.pages id).kva, vpn0 g.addr) := h.pteChecker_eq hs hc
  unfold pageAt
  rw [hwalk]
  simp only [overlay_mem_of h.mem, h.leaf.there, if_true, h.leaf.page]

/-- A page that a process has is behind an entry of its own or one that lies over its tables. -/
theorem Agreed.alone (h : Agreed root P shm gs own s l c) (hlive : (s.procs q).live = true)
    (hu : User root (vpn2 va)) (hk : k < numMaxShm) (hvk : (shm k).valid = true)
    (hpage : pageAt (overlay l c s) q va = some (shm k).pa) :
    ∃ g' ∈ gs, g'.key = (shm k).key ∧ g'.process = q ∧ pathOf g'.addr = pathOf va := by
  have hs := h.sane.shape
  obtain ⟨d, hd⟩ := h.rooted q hlive
  obtain ⟨t, i, hwalk, hpa⟩ : ∃ t i, pteChecker va (s.procs q).pgdir (overlay l c s) = some (t, i) ∧
      ((overlay l c s).mem t i).has present = true ∧
        ((overlay l c s).mem t i).pfn * 4096 % 2 ^ 64 = (shm k).pa := by
    unfold pageAt at hpage
    rw [show ((overlay l c s).procs q).pgdir = (s.procs q).pgdir from rfl] at hpage
    split at hpage
    · cases hpage
    · rename_i t i hw
      split_ifs at hpage with hp
      exact ⟨t, i, hw, hp, Option.some.inj hpage⟩
  obtain ⟨hp, hpa⟩ := hpa
  obtain ⟨hi, hl, _⟩ := leads_of_pteChecker hwalk
  simp only at hi hl
  obtain ⟨id, hid, ht⟩ := hs.of_leads hd hu (h.covers.leads_under hs hd hu hl)
  rw [hi, ht] at hp hpa
  by_cases hmem : ((s.pages id).kva, vpn0 va) ∈ l
  · -- The entry is one that has been returned.
    obtain ⟨g, hg, id', pa', hst, heq⟩ := h.back _ hmem
    obtain ⟨hkva, hvpn⟩ := Prod.mk.inj heq
    have hids := hs.frame_inj id id' (by rw [hid]; simp) (by rw [hst.table]; simp)
      (hs.table_res hid (by simp)) (hs.table_res hst.table (by simp)) hkva
    have hsame := hst.table
    rw [← hids, hid] at hsame
    obtain ⟨hq, hpath⟩ := Prod.mk.inj (Option.some.inj hsame)
    obtain ⟨k', hk', hvk', hkey', id'', hst'⟩ := h.granted g hg
    have hids' := hs.path_inj id'' id g.process _ hst'.table (by rw [hid, ← hsame])
    rw [overlay_mem_of hmem] at hpa
    have hleaf := hst'.leaf.page
    rw [hids', ← hvpn, hpa] at hleaf
    have hkk := h.inj k hk k' hk' hvk hvk' hleaf
    refine ⟨g, hg, by rw [hkk, hkey'], hq.symm, ?_⟩
    have hpath := Option.some.inj hpath
    unfold pathOf
    rw [hvpn, ← hpath]
  · -- A page of the process itself.
    rw [overlay_mem hmem] at hp hpa
    obtain ⟨y, π, hy, _, hres, hpage⟩ := hs.mapped hid hp
    obtain ⟨x, r, hx, hst, hpak⟩ := h.page k hk hvk
    have hxres := (hs.loose x r hx).1
    have hkva : (s.pages y).kva = (s.pages x).kva := by
      refine kva2pa_inj (hs.frameOf (by rw [hy]; simp) hres) (hs.frameOf (by rw [hx]; simp) hxres) ?_
      have hsmall : kva2pa (s.pages x).kva < 2 ^ 56 := by
        obtain ⟨hlo, hhi, _⟩ := hs.frameOf (by rw [hx]; simp) hxres
        simp only [kva2pa, kvaOffset] at *
        omega
      rw [← hpage, kva2pa_pageOf, ← hpak]
      unfold getPa getPfn
      omega
    have hyx := hs.frame_inj y x (by rw [hy]; simp) (by rw [hx]; simp) hres hxres hkva
    rw [hyx, hx] at hy
    cases hy

/-- The pages agree. -/
theorem Agreed.keys (h : Agreed root P shm gs own s l c) {d : Keyed}
    (hstate : d.vm.state = overlay l c s) (hg : d.granted = gs) :
    KeysAgree root P d := by
  have hs := h.sane.shape
  have hP : ∀ g ∈ gs, ∃ k < numMaxShm, (shm k).valid = true ∧ ((shm k).key : Int) = g.key ∧
      P g.key = (shm k).pa := by
    intro g hg
    obtain ⟨k, hk, hvk, hkey, _⟩ := h.granted g hg
    exact ⟨k, hk, hvk, hkey, by rw [← hkey]; exact h.named k hk hvk⟩
  refine ⟨fun g hg' => ?_, fun g hg' g' hg'' heq => ?_, fun g hg' q va hlive hu hpage => ?_⟩
  · rw [hg] at hg'
    obtain ⟨k, hk, hvk, hkey, id, hst⟩ := h.granted g hg'
    rw [hstate, hst.pageAt_eq hs h.covers, ← hkey, h.named k hk hvk]
  · rw [hg] at hg' hg''
    obtain ⟨k, hk, hvk, hkey, hpa⟩ := hP g hg'
    obtain ⟨k', hk', hvk', hkey', hpa'⟩ := hP g' hg''
    have hkk := h.inj k hk k' hk' hvk hvk' (by rw [← hpa, ← hpa', heq])
    rw [← hkey, ← hkey', hkk]
  · rw [hg] at hg' ⊢
    obtain ⟨k, hk, hvk, hkey, hpa⟩ := hP g hg'
    rw [hstate] at hlive hpage
    rw [hpa] at hpage
    rw [← hkey]
    exact h.alone hlive hu hk hvk hpage

/-! ## Steps -/

/-- A grant stands while the tables stay where they are. -/
theorem Stands.step {g : Grant} (h : Stands root own s l c g pa id) (hs : Shape root own s)
    (hkept : ∀ x r, own x = some r → own' x = some r) (hst : Steady own s s') :
    Stands root own' s' l c g pa id ∧ (s'.pages id).kva = (s.pages id).kva := by
  have hpage : s'.pages id = s.pages id :=
    hst.pages id (by rw [h.table]; simp) ((hs.status id _ _ h.table).1 (by simp)).1
  refine ⟨⟨?_, h.user, hkept id _ h.table, ?_, ?_⟩, by rw [hpage]⟩
  · rw [(hst.procs _).2]
    exact h.live
  · rw [hpage]
    exact h.mem
  · rw [hpage]
    exact h.leaf

/-- Entries of shared pages stay covered in a steady state. -/
theorem Covers.steady (hc : Covers own l s) (hs : Shape root own s)
    (hkept : ∀ x r, own x = some r → own' x = some r) (hst : Steady own s s')
    (hmem : ∀ e ∈ l, s'.mem e.1 e.2 = s.mem e.1 e.2) : Covers own' l s' := by
  refine ⟨fun e he => ?_, fun e he => ?_⟩
  · obtain ⟨id, q, π, hid, hπ, heq⟩ := hc.table e he
    refine ⟨id, q, π, hkept id _ hid, hπ, ?_⟩
    rw [hst.pages id (by rw [hid]; simp) ((hs.status id q π hid).1 (by omega)).1]
    exact heq
  · rw [hmem e he]
    exact hc.absent e he

/-- A step under the entries. -/
theorem Agreed.step (h : Agreed root P shm gs own s l c) (hs' : Sane root own' s')
    (hr' : Rooted own' s') (hun' : Unshared s') (hkept : ∀ x r, own x = some r → own' x = some r)
    (hst : Steady own s s') (hc' : Covers own' l s') : Agreed root P shm gs own' s' l c := by
  have hs := h.sane.shape
  refine ⟨hs', hr', hun', hc', fun k hk hvk => ?_, h.inj, h.named, fun g hg => ?_, fun e he => ?_⟩
  · obtain ⟨x, q, hx, hxst, hpa⟩ := h.page k hk hvk
    have hpage := hst.pages x (by rw [hx]; simp) hxst
    refine ⟨x, q, hkept x _ hx, ?_, ?_⟩
    · rw [hpage]
      exact hxst
    · rw [hpage]
      exact hpa
  · obtain ⟨k, hk, hvk, hkey, id, hstands⟩ := h.granted g hg
    exact ⟨k, hk, hvk, hkey, id, (hstands.step hs hkept hst).1⟩
  · obtain ⟨g, hg, id, pa, hstands, heq⟩ := h.back e he
    obtain ⟨hstands', hkva⟩ := hstands.step hs hkept hst
    exact ⟨g, hg, id, pa, hstands', by rw [hkva]; exact heq⟩

/-- The walk finds an entry that lies over the tables. -/
theorem Agreed.walk (h : Agreed root P shm gs own s l c)
    (hid : own id = some (p, some [vpn1 va, vpn2 va]))
    (hmem : ((s.pages id).kva, vpn0 va) ∈ l) :
    pteChecker va ((overlay l c s).procs p).pgdir (overlay l c s) =
        some ((s.pages id).kva, vpn0 va) ∧ ∃ pa, Leaf (c (s.pages id).kva (vpn0 va)) pa := by
  obtain ⟨g, _, id', pa, hst, heq⟩ := h.back _ hmem
  have hleaf := hst.leaf
  rw [← (Prod.mk.inj heq).1, ← (Prod.mk.inj heq).2] at hleaf
  refine ⟨?_, pa, hleaf⟩
  change pteChecker va (s.procs p).pgdir (overlay l c s) = _
  rw [(h.covers.leads (h.sane.shape.leads hid)).pteChecker, overlay_mem_of hmem, hleaf.there]
  rfl

/-- A fault at an address that has been returned is refused: the entry has all its bits. -/
theorem Agreed.refused (h : Agreed root P shm gs own s l c)
    (hid : own id = some (p, some [vpn1 va, vpn2 va]))
    (hmem : ((s.pages id).kva, vpn0 va) ∈ l) :
    handleLoadPageFault p va (overlay l c s) = .error .assertFailed ∧
      handleStorePageFault p va (overlay l c s) = .error .assertFailed := by
  obtain ⟨hwalk, pa, hleaf⟩ := h.walk hid hmem
  unfold handleLoadPageFault handleStorePageFault
  rw [hwalk]
  simp only [overlay_mem_of hmem, hleaf.notSd, hleaf.accessed, hleaf.write, if_true,
    Bool.false_eq_true, if_false]
  exact ⟨trivial, trivial⟩

/-- An address that is not off is that of a grant. -/
theorem not_off (h : ¬ Off own l s p va) :
    ∃ id, own id = some (p, some [vpn1 va, vpn2 va]) ∧ ((s.pages id).kva, vpn0 va) ∈ l := by
  by_contra hno
  exact h fun id hid hmem => hno ⟨id, hid, hmem⟩

/-- A page fault. -/
theorem Agreed.fault (h : Agreed root P shm gs own s l c) {e : Event}
    (he : (∃ p va, e = .load p va ∧ User root (vpn2 va)) ∨
      ∃ p va, e = .store p va ∧ User root (vpn2 va)) {s₁ : State}
    (hstep : handle e (overlay l c s) = .ok s₁) :
    ∃ own' s', s₁ = overlay l c s' ∧ Agreed root P shm gs own' s' l c := by
  have hsane := h.sane
  -- What a handler that runs under the entries leaves.
  have hrun : ∀ {f : State → Except Stop State}, Same l f s →
      Holds AnyStop (fun s' => ∃ own', After root nobody own s own' s') (f s) →
      Holds AnyStop (Steady own s) (f s) → f (overlay l c s) = .ok s₁ →
      ∃ own' s', s₁ = overlay l c s' ∧ Agreed root P shm gs own' s' l c := by
    intro f hsame hafter hsteady hf
    rw [hsame c] at hf
    cases hx : f s with
    | error e =>
        rw [hx] at hf
        cases hf
    | ok s' =>
        rw [hx] at hf
        obtain ⟨own', hafter⟩ := hafter.of_ok hx
        have hkept : ∀ x r, own x = some r → own' x = some r := by
          intro x r hxr
          obtain ⟨q, r⟩ := r
          exact hafter.kept x q r hxr (fun hc => hc)
        have hst := hsteady.of_ok hx
        exact ⟨own', s', (Except.ok.inj hf).symm, h.step hafter.sane hafter.rooted
          (hafter.unshared h.unshared) hkept hst
          (h.covers.steady hsane.shape hkept hst fun e he => hsame.kept hx he)⟩
  have hdead : ∀ {p : Nat}, (s.procs p).live ≠ true → overlay l c s = s₁ →
      ∃ own' s', s₁ = overlay l c s' ∧ Agreed root P shm gs own' s' l c :=
    fun _ heq => ⟨own, s, heq.symm, h⟩
  rcases he with ⟨p, va, rfl, hu⟩ | ⟨p, va, rfl, hu⟩
  · simp only [handle] at hstep
    split_ifs at hstep with hlive
    · by_cases hoff : Off own l s p va
      · exact hrun (handleLoadPageFault_same hsane h.rooted hlive hu h.covers hoff)
          (handleLoadPageFault_after hsane h.rooted hlive hu)
          (handleLoadPageFault_steady hsane h.rooted hlive hu) hstep
      · obtain ⟨id, hid, hmem⟩ := not_off hoff
        rw [(h.refused hid hmem).1] at hstep
        cases hstep
    · exact hdead hlive (Except.ok.inj hstep)
  · simp only [handle] at hstep
    split_ifs at hstep with hlive
    · by_cases hoff : Off own l s p va
      · exact hrun (handleStorePageFault_same hsane h.rooted h.unshared hlive hu h.covers hoff)
          (handleStorePageFault_after hsane h.rooted hlive hu (Or.inl h.unshared))
          (handleStorePageFault_steady hsane h.rooted h.unshared hlive hu) hstep
      · obtain ⟨id, hid, hmem⟩ := not_off hoff
        rw [(h.refused hid hmem).2] at hstep
        cases hstep
    · exact hdead hlive (Except.ok.inj hstep)

/-! ## Attaching -/

/-- The entry a call takes: that of its key, or a free one where no entry has the key. -/
structure Chosen (key : Int) (v : Vm) (r : Nat × Vm) : Prop extends Slotted v r where
  key : (v.shm r.1).valid = true ∧ (r.2.shm r.1).key = (v.shm r.1).key ∧
      ((v.shm r.1).key : Int) = key ∨
    (v.shm r.1).valid = false ∧ (r.2.shm r.1).key = (key % 2 ^ 16).toNat ∧
      ∀ j < numMaxShm, (v.shm j).valid = true → ((v.shm j).key : Int) ≠ key

/-- The entry that `shm_page_get` takes. -/
theorem shmSlot_chosen (key : Int) (v : Vm) : Holds AnyStop (Chosen key v) (shmSlot key v) := by
  have hslot := shmSlot_slotted key v
  unfold shmSlot at hslot ⊢
  split at hslot
  · rename_i k hf
    have hP := List.find?_some hf
    simp only [Bool.decide_and, Bool.decide_eq_true, Bool.and_eq_true, decide_eq_true_eq] at hP
    exact ⟨hslot, Or.inl ⟨hP.2, rfl, hP.1⟩⟩
  · rename_i hnone
    split at hslot
    · rename_i k hf
      have hP := List.find?_some hf
      refine ⟨hslot, Or.inr ⟨by simpa using hP, by simp [setShm], fun j hj hvj hkey => ?_⟩⟩
      have hno := List.find?_eq_none.1 hnone j (List.mem_range.2 hj)
      exact hno (by simp [hkey, hvj])
    · trivial

/-- Counts and names that are not looked at may differ. -/
theorem Agreed.congr (h : Agreed root P shm gs own s l c) {shm' : Nat → Shm}
    (hshm : ∀ j, (shm' j).valid = (shm j).valid ∧ (shm' j).key = (shm j).key ∧
      (shm' j).pa = (shm j).pa) : Agreed root P shm' gs own s l c := by
  refine ⟨h.sane, h.rooted, h.unshared, h.covers, fun k hk hvk => ?_,
    fun k hk k' hk' hvk hvk' heq => ?_, fun k hk hvk => ?_, fun g hg => ?_, h.back⟩
  · rw [(hshm k).1] at hvk
    rw [(hshm k).2.2]
    exact h.page k hk hvk
  · rw [(hshm k).1] at hvk
    rw [(hshm k').1] at hvk'
    rw [(hshm k).2.2, (hshm k').2.2] at heq
    exact h.inj k hk k' hk' hvk hvk' heq
  · rw [(hshm k).1] at hvk
    rw [(hshm k).2.1, (hshm k).2.2]
    exact h.named k hk hvk
  · obtain ⟨k, hk, hvk, hkey, id, hst⟩ := h.granted g hg
    refine ⟨k, hk, ?_, ?_, id, ?_⟩
    · rw [(hshm k).1]
      exact hvk
    · rw [(hshm k).2.1]
      exact hkey
    · rw [(hshm k).2.2]
      exact hst

/-- An entry of the table becomes valid, for a page that none has had. -/
theorem Agreed.enter (h : Agreed root P shm gs own s l c) {shm' : Nat → Shm} {key : Nat}
    (hother : ∀ j, j ≠ k → shm' j = shm j) (hvk : (shm k).valid = false)
    (hkey : (shm' k).key = key) (hno : ∀ j < numMaxShm, (shm j).valid = true → (shm j).key ≠ key)
    (hx : own x = some (q, none)) (hst : (s.pages x).status = .unswapable)
    (hpa : (shm' k).pa = kva2pa (s.pages x).kva)
    (hfresh : ∀ j < numMaxShm, (shm j).valid = true → (shm j).pa ≠ kva2pa (s.pages x).kva) :
    Agreed root (fun z => if z = key then kva2pa (s.pages x).kva else P z) shm' gs own s l c := by
  have hsame : ∀ j, (shm j).valid = true → shm' j = shm j := by
    intro j hj
    refine hother j fun hjk => ?_
    rw [hjk, hvk] at hj
    cases hj
  refine ⟨h.sane, h.rooted, h.unshared, h.covers, fun j hj hvj => ?_,
    fun j hj j' hj' hvj hvj' heq => ?_, fun j hj hvj => ?_, fun g hg => ?_, h.back⟩
  · by_cases hjk : j = k
    · rw [hjk]
      exact ⟨x, q, hx, hst, hpa⟩
    · rw [hother j hjk] at hvj ⊢
      exact h.page j hj hvj
  · by_cases hjk : j = k
    · by_cases hjk' : j' = k
      · rw [hjk, hjk']
      · rw [hother j' hjk'] at hvj' heq
        rw [hjk, hpa] at heq
        exact absurd heq.symm (hfresh j' hj' hvj')
    · rw [hother j hjk] at hvj heq
      by_cases hjk' : j' = k
      · rw [hjk', hpa] at heq
        exact absurd heq (hfresh j hj hvj)
      · rw [hother j' hjk'] at hvj' heq
        exact h.inj j hj j' hj' hvj hvj' heq
  · by_cases hjk : j = k
    · rw [hjk, hkey, if_pos rfl, hpa]
    · rw [hother j hjk] at hvj ⊢
      rw [if_neg (fun hc => hno j hj hvj (by exact_mod_cast hc))]
      exact h.named j hj hvj
  · obtain ⟨j, hj, hvj, hkeyj, id, hstands⟩ := h.granted g hg
    refine ⟨j, hj, ?_, ?_, id, ?_⟩
    · rw [hsame j hvj]
      exact hvj
    · rw [hsame j hvj]
      exact hkeyj
    · rw [hsame j hvj]
      exact hstands

/-- Where no page is shared by snapshots, an entry that a walk finds is that of a page of the
process. -/
theorem Shape.of_pteChecker (hs : Shape root own s) (hr : Rooted own s) (hun : Unshared s)
    (hlive : (s.procs p).live = true) (hu : User root (vpn2 va)) {r : Nat × Nat}
    (hw : pteChecker va (s.procs p).pgdir s = some r) :
    ∃ k, own k = some (p, some (pathOf va)) := by
  obtain ⟨d, hd⟩ := hr p hlive
  obtain ⟨hi, hl, hor⟩ := leads_of_pteChecker hw
  obtain ⟨id, hid, ht⟩ := hs.of_leads hd hu hl
  rw [hi, ht] at hor
  rcases hs.slot id p _ (vpn0 va) hid (by simp) (by simp) with ⟨hslot, _⟩ | ⟨k, hk, _⟩
  · rcases hslot with ⟨habs, hsd⟩ | ⟨_, _, _, k, π, _, _, hst, _⟩
    · rw [habs, hsd rfl] at hor
      rcases hor with hor | hor
      · cases hor
      · cases hor
    · exact absurd hst (hun k)
  · exact ⟨k, hk⟩

/-- An address that has no page, neither one of its own nor one that is shared. -/
theorem Agreed.none_iff (h : Agreed root P shm gs own s l c) (hlive : (s.procs p).live = true)
    (hu : User root (vpn2 va)) :
    pteChecker va (s.procs p).pgdir (overlay l c s) = none ↔
      Off own l s p va ∧ ∀ k, own k ≠ some (p, some (pathOf va)) := by
  have hs := h.sane.shape
  obtain ⟨d, hd⟩ := h.rooted p hlive
  constructor
  · intro hnone
    have hoff : Off own l s p va := by
      by_contra hno
      obtain ⟨id, hid, hmem⟩ := not_off hno
      have hwalk := (h.walk hid hmem).1
      change pteChecker va (s.procs p).pgdir (overlay l c s) = _ at hwalk
      rw [hnone] at hwalk
      cases hwalk
    refine ⟨hoff, fun k hk => ?_⟩
    rw [pteChecker_overlay h.sane h.covers hd hu hoff] at hnone
    obtain ⟨r, hr⟩ := hs.pteChecker_some hk
    rw [hnone] at hr
    cases hr
  · rintro ⟨hoff, hno⟩
    rw [pteChecker_overlay h.sane h.covers hd hu hoff]
    cases hw : pteChecker va (s.procs p).pgdir s with
    | none => rfl
    | some r =>
        obtain ⟨k, hk⟩ := hs.of_pteChecker h.rooted h.unshared hlive hu hw
        exact absurd hk (hno k)

/-- The physical address of a page and back. -/
theorem Shape.kva2pa_page (hs : Shape root own s) (hx : own x ≠ none) (hres : Res s x) :
    kva2pa (s.pages x).kva % 4096 = 0 ∧ kva2pa (s.pages x).kva < 2 ^ 64 ∧
      pa2kva (kva2pa (s.pages x).kva) = (s.pages x).kva := by
  obtain ⟨hlo, hhi, halign⟩ := hs.frameOf hx hres
  simp only [kva2pa, pa2kva, kvaOffset] at *
  omega

/-- The page of a valid entry is put at an address that has none. -/
theorem Agreed.build (h : Agreed root P shm gs own s l c) (hlive : (s.procs p).live = true)
    (hu : User root (vpn2 va))
    (hnone : pteChecker va (s.procs p).pgdir (overlay l c s) = none) (hk : k < numMaxShm)
    (hvk : (shm k).valid = true) {key : Int} (hkey : ((shm k).key : Int) = key) :
    Holds AnyStop (fun s' => ∃ own' s₁ l' c', s' = overlay l' c' s₁ ∧
        Agreed root P shm (⟨p, va, key⟩ :: gs) own' s₁ l' c' ∧
        (∀ x r, own x = some r → own' x = some r) ∧ Steady own s s₁)
      (buildPageHelper va p (shm k).pa (overlay l c s)) := by
  have hs := h.sane.shape
  obtain ⟨d, hd⟩ := h.rooted p hlive
  have hoff := (h.none_iff hlive hu).1 hnone |>.1
  rw [pteChecker_overlay h.sane h.covers hd hu hoff] at hnone
  obtain ⟨x, q, hx, hxst, hpa⟩ := h.page k hk hvk
  obtain ⟨halign, hlt, _⟩ := hs.kva2pa_page (by rw [hx]; simp) (hs.loose x q hx).1
  rw [← hpa] at halign hlt
  refine (buildPageHelper_laid h.sane h.covers hd hu hoff hnone halign hlt).mono fun s' hs' => ?_
  obtain ⟨own', y, s₁, e, hlaid⟩ := hs'
  have hst := hlaid.grows.steady
  have hc₁ : Covers own' l s₁ :=
    ⟨fun f hf => hlaid.covers.table f (List.mem_cons_of_mem _ hf),
      fun f hf => hlaid.covers.absent f (List.mem_cons_of_mem _ hf)⟩
  have h₁ := h.step hlaid.sane (h.rooted.grows hlaid.grows)
    (fun z hz => h.unshared z (hlaid.grows.alone z hz)) hlaid.grows.kept hst hc₁
  -- What stands over the tables stands there still.
  have hold : ∀ {g : Grant} {pa id : Nat}, Stands root own' s₁ l c g pa id →
      Stands root own' s₁ (((s₁.pages y).kva, vpn0 va) :: l) (lay (s₁.pages y).kva (vpn0 va) e c)
        g pa id := by
    intro g pa id hg
    refine ⟨hg.live, hg.user, hg.table, List.mem_cons_of_mem _ hg.mem, ?_⟩
    have hne : ¬((s₁.pages id).kva = (s₁.pages y).kva ∧ vpn0 g.addr = vpn0 va) := by
      rintro ⟨h1, h2⟩
      have hmem := hg.mem
      rw [h1, h2] at hmem
      exact hlaid.fresh hmem
    unfold lay
    rw [if_neg hne]
    exact hg.leaf
  have hnew : Stands root own' s₁ (((s₁.pages y).kva, vpn0 va) :: l)
      (lay (s₁.pages y).kva (vpn0 va) e c) ⟨p, va, key⟩ (shm k).pa y := by
    refine ⟨(hst.procs p).2.trans hlive, hu, hlaid.table, List.mem_cons_self, ?_⟩
    unfold lay
    rw [if_pos ⟨rfl, rfl⟩]
    exact hlaid.leaf
  refine ⟨own', s₁, _, _, hlaid.state, ⟨h₁.sane, h₁.rooted, h₁.unshared, hlaid.covers, h₁.page,
    h₁.inj, h₁.named, fun g hg => ?_, fun f hf => ?_⟩, hlaid.grows.kept, hst⟩
  · rcases List.mem_cons.1 hg with rfl | hg
    · exact ⟨k, hk, hvk, hkey, y, hnew⟩
    · obtain ⟨j, hj, hvj, hkeyj, id, hstands⟩ := h₁.granted g hg
      exact ⟨j, hj, hvj, hkeyj, id, hold hstands⟩
  · rcases List.mem_cons.1 hf with rfl | hf
    · exact ⟨_, List.mem_cons_self, y, _, hnew, rfl⟩
    · obtain ⟨g, hg, id, pa, hstands, heq⟩ := h₁.back f hf
      exact ⟨g, List.mem_cons_of_mem _ hg, id, pa, hold hstands, heq⟩

/-- What is in the page of an entry does not matter. -/
theorem Agreed.clear (h : Agreed root P shm gs own s l c) (hx : own x = some (q, none)) :
    Agreed root P shm gs own (clearPgdir (s.pages x).kva s) l c ∧
      clearPgdir (s.pages x).kva (overlay l c s) = overlay l c (clearPgdir (s.pages x).kva s) := by
  have hs := h.sane.shape
  have hres := (hs.loose x q hx).1
  have hfree := h.covers.not_page hs (by rw [hx]; simp) hres fun q' π hq => by
    rw [hx] at hq
    cases hq
  refine ⟨h.step ?_ ?_ h.unshared (fun _ _ hr => hr) ⟨fun _ _ _ => rfl, fun _ => ⟨rfl, rfl⟩⟩ ?_,
    clearPgdir_overlay hfree⟩
  · exact h.sane.content hx hres (fun π hπ => by cases hπ) (writes_setContent _ _ _)
  · exact h.rooted
  · refine ⟨h.covers.table, fun e he => ?_⟩
    have hmem : (clearPgdir (s.pages x).kva s).mem e.1 e.2 = s.mem e.1 e.2 := by
      have hne : e.1 ≠ (s.pages x).kva := fun hc => hfree e.2 (by rw [← hc]; exact he)
      simp [clearPgdir, setContent, hne]
    rw [hmem]
    exact h.covers.absent e he

/-- A page is taken for a new key. -/
theorem Agreed.take (h : Agreed root P shm gs own s l c) (p : Nat) :
    Holds AnyStop (fun r => ∃ own' s', r.2 = overlay l c s' ∧ Agreed root P shm gs own' s' l c ∧
        own' r.1 = some (p, none) ∧ (s'.pages r.1).status = .unswapable ∧
        (∀ j < numMaxShm, (shm j).valid = true → (shm j).pa ≠ kva2pa (s'.pages r.1).kva) ∧
        Steady own s s' ∧ ∀ k q π, own' k = some (q, some π) → own k = some (q, some π))
      (allocPagetable p .unswapable (overlay l c s)) := by
  have hs := h.sane.shape
  have hunder := allocPagetable_under hs h.sane.settled h.covers p .unswapable
  have halloc := allocPagetable_alloc (p := p) h.sane.toNear h.sane.settled (Or.inr rfl)
  rw [hunder c]
  cases hx : allocPagetable p .unswapable s with
  | error e => trivial
  | ok r =>
      obtain ⟨x, s₁⟩ := r
      have hr := halloc.of_ok hx
      have hid : x = s.pageId := hr.id
      have hst : Steady own s s₁ :=
        ⟨fun y hy hst => hr.pages y hy (by rw [hst]; decide), hr.procs⟩
      have hkept : ∀ y r, own y = some r → hold own s.pageId p y = some r := by
        intro y r hy
        rw [hold_other _ _ (Takes.hold_some hs y hy), hy]
      have hown : hold own s.pageId p x = some (p, none) := by
        rw [hid]
        exact hold_self own s.pageId p
      have hstatus : (s₁.pages x).status = .unswapable := by
        rw [hid]
        exact hr.status
      have hsane : Sane root (hold own s.pageId p) s₁ := by
        refine ⟨hr.near, fun y q hy => ?_⟩
        by_cases hne : y = s.pageId
        · rw [hne, ← hid, hstatus]
          decide
        · exact hr.settled y q hy hne
      have hrooted : Rooted (hold own s.pageId p) s₁ := by
        intro q hq
        rw [(hr.procs q).2] at hq
        obtain ⟨d, hd⟩ := h.rooted q hq
        exact ⟨d, hkept d _ hd⟩
      have hc₁ := h.covers.alloc hs hr fun e he => hunder.kept hx he
      refine ⟨_, s₁, rfl, h.step hsane hrooted (fun y hy => h.unshared y (hr.alone y hy)) hkept hst
        hc₁, hown, hstatus, fun j hj hvj heq => ?_, hst, fun k q π hk => (Takes.hold_path hk).2⟩
      obtain ⟨y, q, hy, hyst, hpa⟩ := h.page j hj hvj
      have hy₁ := hkept y _ hy
      have hpage := hst.pages y (by rw [hy]; simp) hyst
      have hresy := (hsane.shape.loose y q hy₁).1
      have hresx := (hsane.shape.loose x p hown).1
      have hkva : (s₁.pages y).kva = (s₁.pages x).kva := by
        refine kva2pa_inj (hsane.shape.frameOf (by rw [hy₁]; simp) hresy)
          (hsane.shape.frameOf (by rw [hown]; simp) hresx) ?_
        rw [hpage, ← hpa]
        exact heq
      have hyx := hsane.shape.frame_inj y x (by rw [hy₁]; simp) (by rw [hown]; simp) hresy hresx hkva
      exact Takes.hold_some hs y hy (hyx.trans hid)

/-- The shared pages and what has been returned agree, with the pages `P`. -/
def Agrees (root : Nat → Pte) (P : Int → Nat) (d : Keyed) : Prop :=
  ∃ own s l c, d.vm.state = overlay l c s ∧ Agreed root P d.vm.shm d.granted own s l c

/-- `shm_page_get` keeps the agreement. -/
theorem get_agrees {d : Keyed} (h : Agrees root P d) {key : Int}
    (hlive : (d.vm.state.procs p).live = true) (hfits : KeyFits root d (.get p key)) :
    Holds AnyStop (fun d' => ∃ P', Agrees root P' d' ∧ ∀ g ∈ d.granted, P' g.key = P g.key)
      (keyStep (.get p key) d) := by
  obtain ⟨hlow, hhigh, hnone, hu⟩ := hfits
  obtain ⟨own, s, l, c, hstate, h⟩ := h
  have hcut : ((key % 2 ^ 16).toNat : Int) = key := by omega
  unfold keyStep
  refine Holds.bind (P := fun r => ∃ P', Agrees root P' ⟨r.2, ⟨p, r.1, key⟩ :: d.granted⟩ ∧
    ∀ g ∈ d.granted, P' g.key = P g.key) ?_ fun r hr => ?_
  swap
  · obtain ⟨a, v⟩ := r
    exact hr
  unfold shmPageGet
  refine Holds.bind (shmSlot_chosen key d.vm) fun r hr => ?_
  obtain ⟨k, v₁⟩ := r
  have hkey := hr.key
  obtain ⟨⟨hk, hst, hcount, hfound, hother⟩, _⟩ := hr
  simp only at hk hst hcount hfound hother hkey ⊢
  have hvalid : (v₁.shm k).valid = (d.vm.shm k).valid := by rw [hfound]
  have hpa : (v₁.shm k).pa = (d.vm.shm k).pa := by rw [hfound]
  rw [hcount, hst, hvalid, hpa, hstate]
  rw [hstate] at hlive hnone
  obtain ⟨va, hva⟩ : ∃ va, va = nextAddr d.vm p := ⟨_, rfl⟩
  rw [← hva] at hnone hu
  unfold nextAddr at hva
  rw [← hva]
  rcases hkey with ⟨hvk, hkk, hkey⟩ | ⟨hvk, hkk, hno⟩
  · rw [if_neg (by rw [hvk]; decide)]
    refine Holds.bind (h.build hlive hu hnone hk hvk hkey) fun s' hs' => ?_
    obtain ⟨own', s₁, l', c', hs', hA, _, _⟩ := hs'
    rw [holds_ok]
    refine ⟨P, ⟨own', s₁, l', c', hs', hA.congr fun j => ?_⟩, fun _ _ => rfl⟩
    by_cases hjk : j = k
    · rw [hjk]
      simp [setShm, hkk]
    · simp [setShm, hjk, hother j hjk]
  · rw [if_pos hvk]
    refine Holds.bind (h.take p) fun r hr => ?_
    obtain ⟨x, s₀⟩ := r
    obtain ⟨own₁, s₁, hs₁, h₁, hx, hxst, hfresh, hsteady, hpaths⟩ := hr
    simp only at hs₁ hx hxst hfresh ⊢
    rw [hs₁]
    have hpages : ((overlay l c s₁).pages x).kva = (s₁.pages x).kva := rfl
    rw [hpages]
    obtain ⟨shm', hshm'⟩ : ∃ shm' : Nat → Shm, shm' = fun j => if j = k then
      ⟨true, (key % 2 ^ 16).toNat, 0, kva2pa (s₁.pages x).kva⟩ else d.vm.shm j := ⟨_, rfl⟩
    have hat : shm' k = ⟨true, (key % 2 ^ 16).toNat, 0, kva2pa (s₁.pages x).kva⟩ := by
      rw [hshm']
      exact if_pos rfl
    have hrest : ∀ j, j ≠ k → shm' j = d.vm.shm j := by
      intro j hj
      rw [hshm']
      exact if_neg hj
    have hnew : ∀ j < numMaxShm, (d.vm.shm j).valid = true →
        (d.vm.shm j).key ≠ (key % 2 ^ 16).toNat := by
      intro j hj hvj hc
      exact hno j hj hvj (by rw [hc]; exact hcut)
    have hcutk : (shm' k).key = (key % 2 ^ 16).toNat := by rw [hat]
    have h₂ := h₁.enter hrest hvk hcutk hnew hx hxst (by rw [hat]) hfresh
    -- The address has no page still.
    have hlive₁ : (s₁.procs p).live = true := (hsteady.procs p).2.trans hlive
    have hnone₁ : pteChecker va (s₁.procs p).pgdir (overlay l c s₁) = none := by
      obtain ⟨hoff, hnopage⟩ := (h.none_iff hlive hu).1 hnone
      refine (h₁.none_iff hlive₁ hu).2 ⟨fun id hid hmem => ?_, fun j hj => hnopage j (hpaths j _ _ hj)⟩
      have hid₀ := hpaths id _ _ hid
      have hpage := hsteady.pages id (by rw [hid₀]; simp)
        ((h.sane.shape.status id _ _ hid₀).1 (by simp)).1
      rw [hpage] at hmem
      exact hoff id hid₀ hmem
    have hkeyk : ((shm' k).key : Int) = key := by
      rw [hcutk]
      exact hcut
    have hbuild := h₂.build hlive₁ hu hnone₁ hk (by rw [hat]) hkeyk
    rw [show (shm' k).pa = kva2pa (s₁.pages x).kva by rw [hat]] at hbuild
    refine Holds.bind hbuild fun s' hs' => ?_
    obtain ⟨own', s₂, l', c', hs', hA, hkept, hst₂⟩ := hs'
    have hx₂ := hkept x _ hx
    have hpage₂ : s₂.pages x = s₁.pages x := hst₂.pages x (by rw [hx]; simp) hxst
    obtain ⟨hclear, hover⟩ := hA.clear hx₂
    have hback := (hA.sane.shape.kva2pa_page (by rw [hx₂]; simp)
      (hA.sane.shape.loose x p hx₂).1).2.2
    rw [hpage₂] at hclear hover hback
    rw [holds_ok, hback, hs', hover]
    refine ⟨_, ⟨own', _, l', c', rfl, hclear.congr fun j => ?_⟩, fun g hg => ?_⟩
    · by_cases hjk : j = k
      · rw [hjk, hat]
        simp [setShm, hkk]
      · rw [hrest j hjk]
        simp [setShm, hjk, hother j hjk]
    · obtain ⟨j, hj, hvj, hkj, _⟩ := h.granted g hg
      refine if_neg fun hc => hno j hj hvj ?_
      rw [hkj, hc]
      exact hcut

/-! ## Runs -/

/-- A page fault keeps the agreement. -/
theorem fault_agrees {d d' : Keyed} (h : Agrees root P d) {e : Event}
    (he : (∃ p va, e = .load p va ∧ User root (vpn2 va)) ∨
      ∃ p va, e = .store p va ∧ User root (vpn2 va)) {s' : State}
    (hs' : handle e d.vm.state = .ok s') (hd' : d' = { d with vm := { d.vm with state := s' } }) :
    Agrees root P d' := by
  obtain ⟨own, s, l, c, hstate, h⟩ := h
  rw [hstate] at hs'
  obtain ⟨own', s₁, hs₁, hA⟩ := h.fault he hs'
  rw [hd']
  exact ⟨own', s₁, l, c, hs₁, hA⟩

/-- A step keeps the pages of the keys that have been granted. -/
theorem keyStep_agrees {d d' : Keyed} (h : Agrees root P d) {e : KeyEvent} (hcall : Calls d e)
    (hfits : KeyFits root d e) (hstep : keyStep e d = .ok d') :
    ∃ P', Agrees root P' d' ∧ (∀ g ∈ d.granted, P' g.key = P g.key) ∧
      ∀ g ∈ d.granted, g ∈ d'.granted := by
  cases e with
  | get p key =>
      obtain ⟨P', hA, hP⟩ := (get_agrees h hcall hfits).of_ok hstep
      refine ⟨P', hA, hP, fun g hg => ?_⟩
      simp only [keyStep] at hstep
      cases hget : shmPageGet p key d.vm with
      | error e =>
          rw [hget] at hstep
          cases hstep
      | ok r =>
          rw [hget] at hstep
          cases hstep
          exact List.mem_cons_of_mem _ hg
  | load p va =>
      simp only [keyStep] at hstep
      cases hs : handle (.load p va) d.vm.state with
      | error e =>
          rw [hs] at hstep
          cases hstep
      | ok s' =>
          rw [hs] at hstep
          cases hstep
          exact ⟨P, fault_agrees h (Or.inl ⟨p, va, rfl, hfits⟩) hs rfl, fun _ _ => rfl,
            fun _ hg => hg⟩
  | store p va =>
      simp only [keyStep] at hstep
      cases hs : handle (.store p va) d.vm.state with
      | error e =>
          rw [hs] at hstep
          cases hstep
      | ok s' =>
          rw [hs] at hstep
          cases hstep
          exact ⟨P, fault_agrees h (Or.inr ⟨p, va, rfl, hfits⟩) hs rfl, fun _ _ => rfl,
            fun _ hg => hg⟩

/-- An agreement is one about the keys. -/
theorem Agrees.keys {d : Keyed} (h : Agrees root P d) {P' : Int → Nat}
    (hP : ∀ g ∈ d.granted, P' g.key = P g.key) : KeysAgree root P' d := by
  obtain ⟨own, s, l, c, hstate, hA⟩ := h
  obtain ⟨hmapped, hdiffer, halone⟩ := hA.keys hstate rfl
  refine ⟨fun g hg => ?_, fun g hg g' hg' heq => ?_, fun g hg q va hlive hu hpage => ?_⟩
  · rw [hP g hg]
    exact hmapped g hg
  · rw [hP g hg, hP g' hg'] at heq
    exact hdiffer g hg g' hg' heq
  · rw [hP g hg] at hpage
    exact halone g hg q va hlive hu hpage

/-- The run lemma of the agreement, by induction. -/
theorem run_agrees (cs : List KeyEvent) : ∀ {d t : Keyed} {P : Int → Nat}, Agrees root P d →
    AllSteps keyStep Calls cs d → AllSteps keyStep (KeyFits root) cs d → run keyStep cs d = .ok t →
    ∃ P', (∀ g ∈ d.granted, P' g.key = P g.key) ∧
      ∀ n d', run keyStep (cs.take n) d = .ok d' → KeysAgree root P' d' := by
  induction cs with
  | nil =>
      intro d t P h _ _ _
      refine ⟨P, fun _ _ => rfl, fun n d' hd' => ?_⟩
      rw [List.take_nil] at hd'
      cases hd'
      exact h.keys fun _ _ => rfl
  | cons e cs ih =>
      intro d t P h hcalls hfits hrun
      obtain ⟨d₁, hd₁, hrest⟩ := run_cons hrun
      obtain ⟨P₁, h₁, hP₁, hmem⟩ := keyStep_agrees h hcalls.head hfits.head hd₁
      obtain ⟨P', hP', hall⟩ := ih h₁ (hcalls.tail hd₁) (hfits.tail hd₁) hrest
      have hP : ∀ g ∈ d.granted, P' g.key = P g.key :=
        fun g hg => (hP' g (hmem g hg)).trans (hP₁ g hg)
      refine ⟨P', hP, fun n d' hd' => ?_⟩
      cases n with
      | zero =>
          cases hd'
          exact h.keys hP
      | succ n =>
          obtain ⟨d₂, hd₂, hd'⟩ := run_cons hd'
          rw [hd₁] at hd₂
          cases hd₂
          exact hall n d' hd'

/-- With no page shared there is an agreement. -/
theorem openKeyed_agrees (hg : Good root s) (hun : Unshared s) (count : Nat → Nat) :
    Agrees root (fun _ => 0) (openKeyed s count) := by
  obtain ⟨own, hs, hr⟩ := hg
  refine ⟨own, s, [], s.mem, (overlay_self [] s).symm, hs, hr, hun, ⟨fun e he => ?_, fun e he => ?_⟩,
    fun k _ hk => ?_, fun k _ _ _ hk => ?_, fun k _ hk => ?_, fun g hg => ?_, fun e he => ?_⟩
  · cases he
  · cases he
  · cases hk
  · cases hk
  · cases hk
  · cases hg
  · cases he

/-- **Keys of shared pages agree** in every state of every run of attaches and page faults, for any
processes, with one page for a key throughout, if keys fit into their field and every page is
put at an address of the user part that has none. -/
theorem keys_agree {s₀ : State} {es : List Event} (hboot : Booted s₀)
    (hes : ∀ e ∈ es, UserEvent (s₀.mem (pa2kva pgdirPa)) e) (hrun : run handle es s₀ = .ok s)
    (count : Nat → Nat) {cs : List KeyEvent} {d : Keyed}
    (hcalls : AllSteps keyStep Calls cs (openKeyed s count))
    (hfits : AllSteps keyStep (KeyFits (s₀.mem (pa2kva pgdirPa))) cs (openKeyed s count))
    (hd : run keyStep cs (openKeyed s count) = .ok d) :
    ∃ P, ∀ n d', run keyStep (cs.take n) (openKeyed s count) = .ok d' →
      KeysAgree (s₀.mem (pa2kva pgdirPa)) P d' := by
  obtain ⟨hgood, hun⟩ := run_good hboot hes hrun
  obtain ⟨P, _, hall⟩ := run_agrees cs (openKeyed_agrees hgood hun count) hcalls hfits hd
  exact ⟨P, hall⟩

/-- Two processes share a page, one has another, and their stacks grow. -/
def growingSharers : List KeyEvent :=
  [.get 1 5, .load 1 0x20000, .get 2 5, .store 2 0x20000, .get 2 7]

/-- Two processes that share a page while their stacks grow. -/
theorem keys_agree_growingSharers :
    ∃ s d, run handle [.exec 1 blank blank [], .exec 2 blank blank []] bootState = .ok s ∧
      run keyStep growingSharers (openKeyed s fun _ => 0) = .ok d ∧ d.granted.length = 3 ∧
      ∃ P, ∀ n d', run keyStep (growingSharers.take n) (openKeyed s fun _ => 0) = .ok d' →
        KeysAgree (bootState.mem (pa2kva pgdirPa)) P d' := by
  have hrun : returns (fun s => AllSteps keyStep Calls growingSharers (openKeyed s fun _ => 0) ∧
      AllSteps keyStep (KeyFits (bootState.mem (pa2kva pgdirPa))) growingSharers
        (openKeyed s fun _ => 0) ∧
      returns (fun d => d.granted.length = 3)
        (run keyStep growingSharers (openKeyed s fun _ => 0)) = true)
      (run handle [.exec 1 blank blank [], .exec 2 blank blank []] bootState) = true := by
    decide +kernel
  obtain ⟨s, hs, hcalls, hfits, hd⟩ := exists_of_returns hrun
  obtain ⟨d, hd, hlen⟩ := exists_of_returns hd
  refine ⟨s, d, hs, hd, hlen, keys_agree bootState_booted (fun e he => ?_) hs _ hcalls hfits hd⟩
  simp only [List.mem_cons, List.not_mem_nil, or_false] at he
  rcases he with rfl | rfl
  · decide
  · decide

/-- The key 65541 is kept as 5. -/
theorem keys_disagree_cut :
    ∃ s d, run handle [.exec 1 blank blank []] bootState = .ok s ∧
      AllSteps keyStep Calls [.get 1 65541, .get 1 5] (openKeyed s fun _ => 0) ∧
      run keyStep [.get 1 65541, .get 1 5] (openKeyed s fun _ => 0) = .ok d ∧
      ∀ P, ¬ KeysAgree (bootState.mem (pa2kva pgdirPa)) P d := by
  have hrun : returns (fun s => AllSteps keyStep Calls [.get 1 65541, .get 1 5]
        (openKeyed s fun _ => 0) ∧
      returns (fun d => d.granted = [⟨1, userStackAddr - 3 * 4096, 5⟩,
          ⟨1, userStackAddr - 2 * 4096, 65541⟩] ∧
        pageAt d.vm.state 1 (userStackAddr - 3 * 4096) =
          pageAt d.vm.state 1 (userStackAddr - 2 * 4096)) (run keyStep
        [.get 1 65541, .get 1 5] (openKeyed s fun _ => 0)) = true)
      (run handle [.exec 1 blank blank []] bootState) = true := by
    decide +kernel
  obtain ⟨s, hs, hcalls, hd⟩ := exists_of_returns hrun
  obtain ⟨d, hd, hgranted, hsame⟩ := exists_of_returns hd
  refine ⟨s, d, hs, hcalls, hd, fun P hP => ?_⟩
  have h5 := hP.mapped ⟨1, userStackAddr - 3 * 4096, 5⟩ (by rw [hgranted]; simp)
  have h65541 := hP.mapped ⟨1, userStackAddr - 2 * 4096, 65541⟩ (by rw [hgranted]; simp)
  have hkeys := hP.differ ⟨1, userStackAddr - 3 * 4096, 5⟩ (by rw [hgranted]; simp)
    ⟨1, userStackAddr - 2 * 4096, 65541⟩ (by rw [hgranted]; simp)
    (Option.some.inj (h5.symm.trans (hsame.trans h65541)))
  cases hkeys

end Mm
