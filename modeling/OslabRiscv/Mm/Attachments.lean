import OslabRiscv.Mm.Mappings
import OslabRiscv.Mm.Coherence

/-!
# Attached pages

`shm_page_get` and `shm_page_dt` over runs.  Beside the kernel's table stands the list of
what has been attached and not detached, a process and an address each, so that the
counts can be compared with it.  The search of `shm_page_dt` ends at the first entry whose
page is another one, so every detach takes from the wrong count; without one the counts
are right as long as every page is put at an address that has none.
-/

namespace Mm

open Outcome

/-- The page a process has at an address, by its physical address. -/
def pageAt (s : State) (p va : Nat) : Option Nat :=
  match pteChecker va (s.procs p).pgdir s with
  | none => none
  | some (t, i) =>
    if (s.mem t i).has present then some ((s.mem t i).pfn * 4096 % 2 ^ 64) else none

/-- The shared pages, and what has been attached and not detached. -/
structure Desk where
  vm : Vm
  attached : List (Nat × Nat)

inductive ShmCall
  | get (p : Nat) (key : Int)
  | dt (p addr : Nat)

def shmStep : ShmCall → Desk → Except Stop Desk
  | .get p key, d => do
    let (addr, v) ← shmPageGet p key d.vm
    .ok ⟨v, (p, addr) :: d.attached⟩
  | .dt p addr, d => do
    let v ← shmPageDt p addr d.vm
    .ok ⟨v, d.attached.erase (p, addr)⟩

/-- How many attachments have the page `pa`. -/
def attachments (d : Desk) (pa : Nat) : Nat :=
  d.attached.countP fun a => pageAt d.vm.state a.1 a.2 = some pa

/-- Every count is the number of attachments, and is at least 1. -/
def CountsRight (d : Desk) : Prop :=
  ∀ k < numMaxShm, (d.vm.shm k).valid = true →
    (d.vm.shm k).num = attachments d (d.vm.shm k).pa ∧ 1 ≤ (d.vm.shm k).num

instance (d : Desk) : Decidable (CountsRight d) :=
  inferInstanceAs (Decidable (∀ k < numMaxShm, _ → _))

/-- The call detaches the only attachment of the page `pa`. -/
def DetachesLast (d : Desk) (pa : Nat) : ShmCall → Prop
  | .get _ _ => False
  | .dt p addr => pageAt d.vm.state p addr = some pa ∧ attachments d pa = 1

/-- What a call changes: the counts are right after it, an entry becomes invalid where its last
attachment is detached and nowhere else, and a detach changes the count of one entry. -/
structure StepRight (d : Desk) (c : ShmCall) (d' : Desk) : Prop where
  counts : CountsRight d'
  invalid : ∀ k < numMaxShm, (d.vm.shm k).valid = true →
    ((d'.vm.shm k).valid = false ↔ DetachesLast d (d.vm.shm k).pa c)
  others : ∀ p addr, c = .dt p addr → ∀ k < numMaxShm,
    pageAt d.vm.state p addr ≠ some (d.vm.shm k).pa → (d'.vm.shm k).num = (d.vm.shm k).num

/-- The address the next attachment of `p` gets. -/
def nextAddr (v : Vm) (p : Nat) : Nat :=
  (userStackAddr + (2 ^ 64 - ((v.shmPageNum p + 1) % 2 ^ 64 + 1) * 4096 % 2 ^ 64)) % 2 ^ 64

/-- A process attaches, or detaches what it has attached. -/
def Legal (d : Desk) : ShmCall → Prop
  | .get p key => (d.vm.state.procs p).live = true ∧ 1 ≤ key ∧ key ≤ 65535
  | .dt p addr => (p, addr) ∈ d.attached

/-- Nothing is detached, and the address that is next has no page yet and is one of the user
part. -/
def Attachable (root : Nat → Pte) (d : Desk) : ShmCall → Prop
  | .get p _ => pteChecker (nextAddr d.vm p) (d.vm.state.procs p).pgdir d.vm.state = none ∧
    User root (vpn2 (nextAddr d.vm p))
  | .dt _ _ => False

instance (d : Desk) : ∀ c, Decidable (Legal d c)
  | .get p key => (inferInstance :
      Decidable ((d.vm.state.procs p).live = true ∧ 1 ≤ key ∧ key ≤ 65535))
  | .dt p addr => (inferInstance : Decidable ((p, addr) ∈ d.attached))

instance (root : Nat → Pte) (d : Desk) : ∀ c, Decidable (Attachable root d c)
  | .get p _ => (inferInstance : Decidable
      (pteChecker (nextAddr d.vm p) (d.vm.state.procs p).pgdir d.vm.state = none ∧
        User root (vpn2 (nextAddr d.vm p))))
  | .dt _ _ => instDecidableFalse

/-- The desk before anything is attached. -/
def openDesk (s : State) (count : Nat → Nat) : Desk :=
  ⟨⟨s, fun _ => ⟨false, 0, 0, 0⟩, count⟩, []⟩

variable {root : Nat → Pte} {L : Nat → Nat → Prop} {s s' : State} {d d' : Desk} {v v' : Vm}
  {p q va pa k t : Nat} {c : ShmCall}

/-- `pte_checker` finds the entry of a linked page. -/
theorem Linked.pteChecker_eq (h : Linked root s p va pa t) :
    pteChecker va (s.procs p).pgdir s = some (t, vpn0 va) := by
  rw [h.leads.pteChecker, h.there]
  rfl

/-- The process sees the page that is linked. -/
theorem Linked.pageAt_eq (h : Linked root s p va pa t) : pageAt s p va = some pa := by
  unfold pageAt
  rw [h.pteChecker_eq]
  simp only [h.there, if_true, h.page]

/-- The entry an attachment has. -/
def slotOf (s : State) (a : Nat × Nat) : Option (Nat × Nat) :=
  pteChecker a.2 (s.procs a.1).pgdir s

/-! ## What holds without a detach -/

/-- The entries and the page tables agree. -/
structure Attached (root : Nat → Pte) (d : Desk) : Prop where
  levels : ∃ L, Levels root L d.vm.state
  ledger : Ledger 0 d.vm.state
  noSwap : NoSwap d.vm.state
  blank : ∀ k, (d.vm.shm k).valid = false → (d.vm.shm k).pa = 0 ∧ (d.vm.shm k).num = 0
  frame : ∀ k, (d.vm.shm k).valid = true →
    ∃ kva, Given d.vm.state kva ∧ (d.vm.shm k).pa = kva2pa kva
  inj : ∀ k k', (d.vm.shm k).valid = true → (d.vm.shm k').valid = true →
    (d.vm.shm k).pa = (d.vm.shm k').pa → k = k'
  linked : ∀ a ∈ d.attached, ∃ k < numMaxShm, (d.vm.shm k).valid = true ∧
    ∃ t, Linked root d.vm.state a.1 a.2 (d.vm.shm k).pa t
  slots : (d.attached.map (slotOf d.vm.state)).Nodup
  counts : CountsRight d

theorem Ledger.given_frame (h : Ledger 0 s) {kva : Nat} (hg : Given s kva) : Frame kva := by
  have hr := h.room
  exact hg.frame ⟨by omega, h.count⟩

/-- The physical address of a page that has been given out. -/
theorem Ledger.given_pa (h : Ledger 0 s) {kva : Nat} (hg : Given s kva) :
    kva2pa kva % 4096 = 0 ∧ kva2pa kva < 2 ^ 64 ∧ kva2pa kva ≠ 0 ∧ pa2kva (kva2pa kva) = kva := by
  obtain ⟨hlo, halign, hlt⟩ := hg
  have hr := h.room
  have hc := h.count
  simp only [kva2pa, pa2kva, kvaOffset, freememKernel, pageNum] at *
  omega

/-- There is room for so many entries in the pages that can be given out. -/
theorem Attached.few (h : Attached root d) : d.attached.length ≤ pageNum * 512 := by
  obtain ⟨L, hL⟩ := h.levels
  have hroom := h.ledger.room
  have hcount := h.ledger.count
  obtain ⟨num, hnum⟩ : ∃ num : Option (Nat × Nat) → Nat, num = fun o =>
    o.elim 0 fun e => (e.1 - freememKernel) / 4096 * 512 + e.2 := ⟨_, rfl⟩
  have hslot : ∀ o ∈ d.attached.map (slotOf d.vm.state), ∃ t i, o = some (t, i) ∧
      Given d.vm.state t ∧ i < 512 := by
    intro o ho
    obtain ⟨a, ha, rfl⟩ := List.mem_map.1 ho
    obtain ⟨k, _, _, t, hl⟩ := h.linked a ha
    exact ⟨t, vpn0 a.2, hl.pteChecker_eq, hL.given t 2 (hL.leads hl.live hl.user hl.leads).2.2,
      Nat.mod_lt _ (by decide)⟩
  have hnodup : ((d.attached.map (slotOf d.vm.state)).map num).Nodup := by
    refine h.slots.map_on fun o ho o' ho' heq => ?_
    obtain ⟨t, i, rfl, ⟨hlo, halign, hhi⟩, hi⟩ := hslot o ho
    obtain ⟨t', i', rfl, ⟨hlo', halign', hhi'⟩, hi'⟩ := hslot o' ho'
    simp only [hnum, Option.elim] at heq
    have ht : t = t' := by
      simp only [freememKernel] at *
      omega
    have hii : i = i' := by
      rw [ht] at heq
      omega
    rw [ht, hii]
  have hsub : ((d.attached.map (slotOf d.vm.state)).map num) ⊆ List.range (pageNum * 512) := by
    intro n hn
    obtain ⟨o, ho, rfl⟩ := List.mem_map.1 hn
    obtain ⟨t, i, rfl, ⟨hlo, halign, hhi⟩, hi⟩ := hslot o ho
    rw [List.mem_range, hnum]
    simp only [Option.elim, pageNum, freememKernel] at *
    omega
  have hlen := (hnodup.subperm hsub).length_le
  simpa using hlen

/-- A process attaches one more page: what is left of it for the table and the list. -/
theorem Attached.attach (h : Attached root d) {L' : Nat → Nat → Prop} {v' : Vm}
    (hext : Extends d.vm.state v'.state) (hL' : Levels root L' v'.state)
    (hled : Ledger 0 v'.state) (hns : NoSwap v'.state)
    (hk : k < numMaxShm) {kva : Nat} (hkva : Given v'.state kva) (hpa : pa = kva2pa kva)
    (hnew : Linked root v'.state p va pa t)
    (habs : t < d.vm.state.kernMemCurr → (d.vm.state.mem t (vpn0 va)).has present = false)
    (hshm : ∀ j, v'.shm j = if j = k then ⟨true, (v'.shm k).key, (d.vm.shm k).num + 1, pa⟩
      else d.vm.shm j)
    (hold : (d.vm.shm k).valid = true → (d.vm.shm k).pa = pa)
    (hfresh : (d.vm.shm k).valid = false →
      ∀ j, (d.vm.shm j).valid = true → (d.vm.shm j).pa ≠ pa) :
    Attached root ⟨v', (p, va) :: d.attached⟩ := by
  obtain ⟨L, hL⟩ := h.levels
  have hat : v'.shm k = ⟨true, (v'.shm k).key, (d.vm.shm k).num + 1, pa⟩ := by
    have := hshm k
    rwa [if_pos rfl] at this
  have hother : ∀ j, j ≠ k → v'.shm j = d.vm.shm j := fun j hj => by rw [hshm j, if_neg hj]
  have hsame : ∀ j, (d.vm.shm j).valid = true →
      (v'.shm j).valid = true ∧ (v'.shm j).pa = (d.vm.shm j).pa := by
    intro j hj
    by_cases hjk : j = k
    · rw [hjk] at hj ⊢
      rw [hat]
      exact ⟨rfl, (hold hj).symm⟩
    · rw [hother j hjk]
      exact ⟨hj, rfl⟩
  -- The page of another entry is another page.
  have hapart : ∀ j, j ≠ k → (d.vm.shm j).valid = true → (d.vm.shm j).pa ≠ pa := by
    intro j hjk hj heq
    by_cases hvk : (d.vm.shm k).valid = true
    · exact hjk (h.inj j k hj hvk (heq.trans (hold hvk).symm))
    · exact hfresh (by simpa using hvk) j hj heq
  have hlinked : ∀ a ∈ d.attached, ∃ j < numMaxShm, (d.vm.shm j).valid = true ∧ ∃ t,
      Linked root d.vm.state a.1 a.2 (d.vm.shm j).pa t ∧
        Linked root v'.state a.1 a.2 (d.vm.shm j).pa t := by
    intro a ha
    obtain ⟨j, hj, hvalid, t, hl⟩ := h.linked a ha
    exact ⟨j, hj, hvalid, t, hl, hl.extends hL hext⟩
  have hcount (x : Nat) : attachments ⟨v', (p, va) :: d.attached⟩ x =
      attachments d x + if pa = x then 1 else 0 := by
    unfold attachments
    rw [List.countP_cons, hnew.pageAt_eq]
    congr 1
    · refine List.countP_congr fun a ha => ?_
      obtain ⟨_, _, _, t, hl, hl'⟩ := hlinked a ha
      rw [hl.pageAt_eq, hl'.pageAt_eq]
    · simp
  refine ⟨⟨L', hL'⟩, hled, hns, fun j hj => ?_, fun j hj => ?_, fun j j' hj hj' heq => ?_,
    fun a ha => ?_, ?_, fun j hj hvalid => ?_⟩
  · by_cases hjk : j = k
    · rw [hjk, hat] at hj
      cases hj
    · rw [hother j hjk] at hj ⊢
      exact h.blank j hj
  · by_cases hjk : j = k
    · rw [hjk, hat]
      exact ⟨kva, hkva, hpa⟩
    · rw [hother j hjk] at hj ⊢
      obtain ⟨f, ⟨hlo, halign, hlt⟩, hf⟩ := h.frame j hj
      exact ⟨f, ⟨hlo, halign, hlt.trans_le hext.kern⟩, hf⟩
  · by_cases hjk : j = k
    · by_cases hjk' : j' = k
      · rw [hjk, hjk']
      · rw [hjk, hat, hother j' hjk'] at heq
        rw [hother j' hjk'] at hj'
        exact absurd heq.symm (hapart j' hjk' hj')
    · rw [hother j hjk] at hj heq
      by_cases hjk' : j' = k
      · rw [hjk', hat] at heq
        exact absurd heq (hapart j hjk hj)
      · rw [hother j' hjk'] at hj' heq
        exact h.inj j j' hj hj' heq
  · rcases List.mem_cons.1 ha with rfl | ha
    · exact ⟨k, hk, by rw [hat], t, by rw [hat]; exact hnew⟩
    · obtain ⟨j, hj, hvalid, t, _, hl⟩ := hlinked a ha
      obtain ⟨hvalid', hpa'⟩ := hsame j hvalid
      exact ⟨j, hj, hvalid', t, by rw [hpa']; exact hl⟩
  · have hmap : d.attached.map (slotOf v'.state) = d.attached.map (slotOf d.vm.state) := by
      refine List.map_congr_left fun a ha => ?_
      obtain ⟨_, _, _, t, hl, hl'⟩ := hlinked a ha
      exact hl'.pteChecker_eq.trans hl.pteChecker_eq.symm
    rw [List.map_cons, List.nodup_cons]
    change slotOf v'.state (p, va) ∉ d.attached.map (slotOf v'.state) ∧
      (d.attached.map (slotOf v'.state)).Nodup
    rw [hmap]
    refine ⟨fun hmem => ?_, h.slots⟩
    obtain ⟨a, ha, heq⟩ := List.mem_map.1 hmem
    obtain ⟨_, _, _, t', hl, _⟩ := hlinked a ha
    have heq : some (t', vpn0 a.2) = some (t, vpn0 va) :=
      hl.pteChecker_eq.symm.trans (heq.trans hnew.pteChecker_eq)
    obtain ⟨rfl, hi⟩ := Prod.mk.inj (Option.some.inj heq)
    have hlt := (hL.given _ 2 (hL.leads hl.live hl.user hl.leads).2.2).2.2
    have hpres := hl.there
    rw [hi, habs hlt] at hpres
    cases hpres
  · change (v'.shm j).num = attachments ⟨v', (p, va) :: d.attached⟩ (v'.shm j).pa ∧
      1 ≤ (v'.shm j).num
    by_cases hjk : j = k
    · rw [hjk, hat, hcount, if_pos rfl]
      refine ⟨congrArg (· + 1) ?_, Nat.le_add_left _ _⟩
      by_cases hvk : (d.vm.shm k).valid = true
      · rw [(h.counts k hk hvk).1, hold hvk]
      · have hvk : (d.vm.shm k).valid = false := by simpa using hvk
        rw [(h.blank k hvk).2]
        refine (List.countP_eq_zero.2 fun a ha => ?_).symm
        obtain ⟨i, _, hvi, t, hl, _⟩ := hlinked a ha
        rw [hl.pageAt_eq]
        simpa using hfresh hvk i hvi
    · have hvalid : (v'.shm j).valid = true := hvalid
      rw [hother j hjk] at hvalid ⊢
      rw [hcount, if_neg (hapart j hjk hvalid).symm]
      exact h.counts j hj hvalid

/-! ## Attaching -/

/-- What the search for an entry gives. -/
structure Slotted (v : Vm) (r : Nat × Vm) : Prop where
  lt : r.1 < numMaxShm
  state : r.2.state = v.state
  count : r.2.shmPageNum = v.shmPageNum
  found : r.2.shm r.1 = { v.shm r.1 with key := (r.2.shm r.1).key }
  other : ∀ j, j ≠ r.1 → r.2.shm j = v.shm j

/-- The entry that a call takes is that of the key or a free one. -/
theorem shmSlot_slotted (key : Int) (v : Vm) : Holds AnyStop (Slotted v) (shmSlot key v) := by
  have hlt : ∀ {P : Nat → Bool} {k : Nat}, (List.range numMaxShm).find? P = some k →
      k < numMaxShm := fun hf => List.mem_range.1 (List.mem_of_find?_eq_some hf)
  unfold shmSlot
  split
  · rename_i k hf
    exact ⟨hlt hf, rfl, rfl, rfl, fun _ _ => rfl⟩
  · split
    · rename_i k hf
      refine ⟨hlt hf, rfl, rfl, ?_, fun j hj => if_neg hj⟩
      simp [setShm]
    · trivial

/-- No count comes near the end of its field. -/
theorem Attached.num_small (h : Attached root d) (hk : k < numMaxShm) :
    ((d.vm.shm k).num + 1) % 2 ^ 32 = (d.vm.shm k).num + 1 := by
  have hsmall : (d.vm.shm k).num ≤ pageNum * 512 := by
    by_cases hvk : (d.vm.shm k).valid = true
    · rw [(h.counts k hk hvk).1]
      exact List.countP_le_length.trans h.few
    · rw [(h.blank k (by simpa using hvk)).2]
      exact Nat.zero_le _
  simp only [pageNum] at hsmall
  omega

/-- `shm_page_get` keeps the attachments. -/
theorem get_attached (h : Attached root d) {key : Int} (hlegal : Legal d (.get p key))
    (hfree : Attachable root d (.get p key)) :
    Holds AnyStop (Attached root) (shmStep (.get p key) d) := by
  obtain ⟨hlive, -, -⟩ := hlegal
  obtain ⟨hnone, hu⟩ := hfree
  obtain ⟨L, hL⟩ := h.levels
  unfold shmStep
  refine Holds.bind (P := fun r => Attached root ⟨r.2, (p, r.1) :: d.attached⟩) ?_ fun r hr => ?_
  swap
  · obtain ⟨a, v⟩ := r
    exact hr
  unfold shmPageGet
  refine Holds.bind (shmSlot_slotted key d.vm) fun r hr => ?_
  obtain ⟨k, v₁⟩ := r
  obtain ⟨hk, hstate, hcount, hat, hother⟩ := hr
  simp only at hk hstate hcount hat hother ⊢
  have hsmall := h.num_small hk
  have hvalid : (v₁.shm k).valid = (d.vm.shm k).valid := by rw [hat]
  have hnum : (v₁.shm k).num = (d.vm.shm k).num := by rw [hat]
  have hpa : (v₁.shm k).pa = (d.vm.shm k).pa := by rw [hat]
  rw [hcount, hstate, hvalid, hnum, hpa, hsmall]
  obtain ⟨va, hva⟩ : ∃ va, va = nextAddr d.vm p := ⟨_, rfl⟩
  unfold nextAddr at hva
  rw [← hva]
  have hva : va = nextAddr d.vm p := hva
  rw [← hva] at hnone hu
  by_cases hvk : (d.vm.shm k).valid = false
  · rw [if_pos hvk]
    refine Holds.bind (allocPagetable_fresh h.ledger h.noSwap p) fun r hr => ?_
    obtain ⟨id, s₁⟩ := r
    obtain ⟨kva, hkva⟩ : ∃ kva, kva = d.vm.state.kernMemCurr := ⟨_, rfl⟩
    have hpage : (s₁.pages id).kva = kva := hr.kva.trans hkva.symm
    have hkern : s₁.kernMemCurr = kva + 4096 := by
      rw [hkva]
      exact hr.kern
    have hprocs := hr.procs p
    have hmem : s₁.mem = d.vm.state.mem := hr.mem
    have hgiven : Given s₁ kva := by
      refine ⟨?_, ?_, by omega⟩
      · rw [hkva]
        exact h.ledger.room.1
      · rw [hkva]
        exact h.ledger.room.2.1
    have hled₁ : Ledger 0 s₁ := hr.ledger
    obtain ⟨halign, hlt, _, hback⟩ := hled₁.given_pa hgiven
    have hnone₁ : pteChecker va (s₁.procs p).pgdir s₁ = none := by
      rw [hprocs.1]
      unfold pteChecker at hnone ⊢
      rw [hmem]
      exact hnone
    simp only [hpage]
    refine Holds.bind (buildPageHelper_links (hr.levels hL) hled₁ (by decide) hr.noSwap
      (hprocs.2.trans hlive) hu hnone₁ halign hlt) fun s₂ hs₂ => ?_
    obtain ⟨⟨L', hg⟩, t, hlinked, habs⟩ := hs₂
    have hall : Grown root 0 L d.vm.state L' s₂ := Grown.trans
      ⟨hr.levels hL, fun _ _ h => h, fun _ _ h => Or.inl h, hr.extends, hled₁, hr.noSwap⟩ hg
    have hloose : ∀ l, ¬ L' kva l := by
      intro l hl
      rcases hg.new kva l hl with hl | hge
      · have := (hL.given kva l hl).2.2
        omega
      · omega
    have hclear := hall.clear hloose hkva.ge
    have hlinked' : Linked root (clearPgdir kva s₂) p va (kva2pa kva) t := by
      refine hlinked.same hg.levels (fun a l ha i _ => ?_) ⟨rfl, rfl⟩
      have hne : a ≠ kva := fun hc => hloose l (hc ▸ ha)
      simp [clearPgdir, setContent, hne]
    rw [holds_ok, hback]
    refine h.attach hclear.ext hclear.levels hclear.ledger hclear.noSwap hk
      ⟨hgiven.1, hgiven.2.1, hgiven.2.2.trans_le hg.ext.kern⟩ (rfl : kva2pa kva = _) hlinked' (fun htlt => ?_)
      (fun j => ?_) (fun hc => by rw [hvk] at hc; cases hc) fun _ j hj heq => ?_
    · rw [← hmem]
      exact habs (by omega)
    · by_cases hjk : j = k
      · simp [setShm, hjk]
      · simp [setShm, hjk, hother j hjk]
    · obtain ⟨f, hf, hpaf⟩ := h.frame j hj
      have hfk := kva2pa_inj (h.ledger.given_frame hf) (hled₁.given_frame hgiven)
        (hpaf.symm.trans heq)
      have := hf.2.2
      omega
  · rw [if_neg hvk]
    have hvk : (d.vm.shm k).valid = true := by simpa using hvk
    obtain ⟨kva, hgiven, hkva⟩ := h.frame k hvk
    obtain ⟨halign, hlt, _, _⟩ := h.ledger.given_pa hgiven
    rw [← hkva] at halign hlt
    refine Holds.bind (buildPageHelper_links hL h.ledger (by decide) h.noSwap hlive hu hnone
      halign hlt) fun s' hs' => ?_
    obtain ⟨⟨L', hg⟩, t, hlinked, habs⟩ := hs'
    obtain ⟨hlo, hal, hhi⟩ := hgiven
    rw [holds_ok]
    refine h.attach hg.ext hg.levels hg.ledger hg.noSwap hk
      ⟨hlo, hal, hhi.trans_le hg.ext.kern⟩ hkva hlinked habs (fun j => ?_) (fun _ => rfl)
      (fun hc => by rw [hvk] at hc; cases hc)
    by_cases hjk : j = k
    · simp [setShm, hjk, hvk]
    · simp [setShm, hjk, hother j hjk]

/-- Nothing is said of what a call leaves. -/
theorem holds_anyStop {α : Type} (x : Except Stop α) : Holds AnyStop (fun _ => True) x := by
  cases x with
  | ok a => trivial
  | error e => trivial

/-- An attach leaves valid what is valid. -/
theorem shmPageGet_valid (p : Nat) (key : Int) (v : Vm) :
    Holds AnyStop (fun r => ∀ j, (v.shm j).valid = true → (r.2.shm j).valid = true)
      (shmPageGet p key v) := by
  unfold shmPageGet
  refine Holds.bind (shmSlot_slotted key v) fun r hr => ?_
  obtain ⟨k, v₁⟩ := r
  have hkept : ∀ j, (v.shm j).valid = true → (v₁.shm j).valid = true := by
    intro j hj
    by_cases hjk : j = k
    · have hfound : v₁.shm k = { v.shm k with key := (v₁.shm k).key } := hr.found
      rw [hjk] at hj ⊢
      rw [hfound]
      exact hj
    · rw [hr.other j hjk]
      exact hj
  simp only
  split_ifs with hvk
  · refine Holds.bind (holds_anyStop _) fun r _ => Holds.bind (holds_anyStop _) fun s' _ => ?_
    intro j hj
    by_cases hjk : j = k
    · simp [setShm, hjk]
    · simp [setShm, hjk, hkept j hj]
  · refine Holds.bind (holds_anyStop _) fun s' _ => ?_
    intro j hj
    by_cases hjk : j = k
    · simp [setShm, hjk, hvk]
    · simp [setShm, hjk, hkept j hj]

/-- An attach at an address that has no page is right. -/
theorem get_right (h : Attached root d) {key : Int} (hlegal : Legal d (.get p key))
    (hfree : Attachable root d (.get p key)) (hstep : shmStep (.get p key) d = .ok d') :
    Attached root d' ∧ StepRight d (.get p key) d' := by
  have hafter := (get_attached h hlegal hfree).of_ok hstep
  refine ⟨hafter, hafter.counts, fun k _ hvk => ?_, fun p addr hc => by cases hc⟩
  refine ⟨fun hinv => ?_, fun hlast => hlast.elim⟩
  have hkept : (d'.vm.shm k).valid = true := by
    simp only [shmStep] at hstep
    cases hget : shmPageGet p key d.vm with
    | error e =>
        rw [hget] at hstep
        cases hstep
    | ok r =>
        rw [hget] at hstep
        cases hstep
        exact (shmPageGet_valid p key d.vm).of_ok hget k hvk
  rw [hinv] at hkept
  cases hkept

/-! ## Detaching -/

/-- **A detach takes from the wrong count**, whatever is attached. -/
theorem dt_wrong (h : Attached root d) (ha : (p, va) ∈ d.attached) :
    ∃ d', shmStep (.dt p va) d = .ok d' ∧ ¬ StepRight d (.dt p va) d' := by
  obtain ⟨k, hk, hvk, t, hl⟩ := h.linked _ ha
  obtain ⟨kva, hgiven, hkva⟩ := h.frame k hvk
  have hne : ∀ j, j ≠ k → (d.vm.shm j).pa ≠ (d.vm.shm k).pa := by
    intro j hjk heq
    by_cases hvj : (d.vm.shm j).valid = true
    · exact hjk (h.inj j k hvj hvk heq)
    · rw [(h.blank j (by simpa using hvj)).1, hkva] at heq
      exact (h.ledger.given_pa hgiven).2.2.1 heq.symm
  obtain ⟨j, hj, hjk⟩ : ∃ j < numMaxShm, j ≠ k := by
    by_cases hk0 : k = 0
    · exact ⟨1, by decide, by omega⟩
    · exact ⟨0, by decide, by omega⟩
  cases hf : (List.range numMaxShm).find? fun i => (d.vm.shm i).pa ≠ (d.vm.shm k).pa with
  | none =>
      have := List.find?_eq_none.1 hf j (List.mem_range.2 hj)
      exact absurd (hne j hjk) (by simpa using this)
  | some i =>
      have hi : i < numMaxShm := List.mem_range.1 (List.mem_of_find?_eq_some hf)
      have hpa : (d.vm.shm i).pa ≠ (d.vm.shm k).pa := by
        simpa using List.find?_some hf
      have hsmall := h.num_small hi
      have hwalk : pteChecker va (d.vm.state.procs p).pgdir d.vm.state = some (t, vpn0 va) :=
        hl.pteChecker_eq
      have hpage : (d.vm.state.mem t (vpn0 va)).pfn * 4096 % 2 ^ 64 = (d.vm.shm k).pa := hl.page
      have hdt : ∃ v', shmPageDt p va d.vm = .ok v' ∧
          (v'.shm i).num = ((d.vm.shm i).num + (2 ^ 32 - 1)) % 2 ^ 32 := by
        unfold shmPageDt
        rw [hwalk]
        simp only [hpage]
        rw [hf]
        exact ⟨_, rfl, by simp [setShm]⟩
      obtain ⟨v', hv', hnum⟩ := hdt
      refine ⟨⟨v', d.attached.erase (p, va)⟩, ?_, fun hright => ?_⟩
      · simp only [shmStep, hv']
        rfl
      · have hsame : (v'.shm i).num = (d.vm.shm i).num := by
          refine hright.others p va rfl i hi ?_
          rw [hl.pageAt_eq]
          exact fun hc => hpa (Option.some.inj hc).symm
        rw [hnum] at hsame
        omega

/-! ## Runs -/

/-- At the start nothing is attached. -/
theorem openDesk_attached (hg : Good root s) (hled : Ledger 0 s) (hns : NoSwap s)
    (count : Nat → Nat) : Attached root (openDesk s count) := by
  refine ⟨hg.levels, hled, hns, fun _ _ => ⟨rfl, rfl⟩, fun _ hk => ?_, fun _ _ hk => ?_,
    fun a ha => ?_, List.nodup_nil, fun _ _ hk => ?_⟩
  · cases hk
  · cases hk
  · cases ha
  · cases hk

/-- The run lemma of the attachments, by induction. -/
theorem Attached.steps (cs : List ShmCall) : ∀ {d : Desk}, Attached root d →
    AllSteps shmStep Legal cs d → AllSteps shmStep (Attachable root) cs d →
    AllSteps shmStep (fun d c => ∀ d', shmStep c d = .ok d' → StepRight d c d') cs d ∧
      ∀ d', run shmStep cs d = .ok d' → Attached root d' := by
  induction cs with
  | nil =>
      intro d h _ _
      refine ⟨trivial, fun d' hrun => ?_⟩
      cases hrun
      exact h
  | cons c cs ih =>
      intro d h hlegal hfits
      have hhead := hfits.head
      cases c with
      | dt p addr => exact hhead.elim
      | get p key =>
          cases hs : shmStep (.get p key) d with
          | error e =>
              refine ⟨⟨fun d' hd' => ?_, ?_⟩, fun d' hrun => ?_⟩
              · rw [hs] at hd'
                cases hd'
              · rw [hs]
                trivial
              · obtain ⟨d₁, hd₁, _⟩ := run_cons hrun
                rw [hs] at hd₁
                cases hd₁
          | ok d₁ =>
              obtain ⟨h₁, hright⟩ := get_right h hlegal.head hhead hs
              obtain ⟨hrest, hlast⟩ := ih h₁ (hlegal.tail hs) (hfits.tail hs)
              refine ⟨⟨fun d' hd' => ?_, ?_⟩, fun d' hrun => ?_⟩
              · rw [hs] at hd'
                cases hd'
                exact hright
              · rw [hs]
                exact hrest
              · obtain ⟨d₂, hd₂, hrun⟩ := run_cons hrun
                rw [hs] at hd₂
                cases hd₂
                exact hlast d' hrun

/-- **The counts of shared pages.**  For any processes, as long as nothing is detached and every
page is put at an address that had none, every step is right and so are the counts; a
detach, whichever it is, is then the first step that is not. -/
theorem shm_counts_right {s₀ : State} {es : List Event} (hboot : Booted s₀)
    (hes : ∀ e ∈ es, Starts e ∧ UserEvent (s₀.mem (pa2kva pgdirPa)) e)
    (hrun : run handle es s₀ = .ok s) (count : Nat → Nat) {cs : List ShmCall}
    (hlegal : AllSteps shmStep Legal cs (openDesk s count))
    (hfits : AllSteps shmStep (Attachable (s₀.mem (pa2kva pgdirPa))) cs (openDesk s count)) :
    AllSteps shmStep (fun d c => ∀ d', shmStep c d = .ok d' → StepRight d c d') cs
        (openDesk s count) ∧
      ∀ d, run shmStep cs (openDesk s count) = .ok d → CountsRight d ∧
        ∀ p addr, (p, addr) ∈ d.attached →
          ∃ d', shmStep (.dt p addr) d = .ok d' ∧ ¬ StepRight d (.dt p addr) d' := by
  obtain ⟨hgood, _⟩ := run_good hboot (fun e he => (hes e he).2) hrun
  have hstart : NoSwap s₀ := fun id => by
    rw [hboot.pages]
    exact fun hc => by cases hc
  obtain ⟨hled, hns⟩ := run_noSwap (fun e he => (hes e he).1) hboot.ledger hstart hrun
  obtain ⟨hsteps, hlast⟩ := (openDesk_attached hgood hled hns count).steps cs hlegal hfits
  refine ⟨hsteps, fun d hd => ?_⟩
  have hattached := hlast d hd
  exact ⟨hattached.counts, fun p addr ha => dt_wrong hattached ha⟩

/-- Two processes share a page, and one of them has another. -/
def twoSharers : List ShmCall := [.get 1 5, .get 2 5, .get 2 7]

/-- Two processes share a page. -/
theorem shm_counts_right_twoSharers :
    ∃ s d, run handle [.exec 1 blank blank [], .exec 2 blank blank []] bootState = .ok s ∧
      run shmStep twoSharers (openDesk s fun _ => 0) = .ok d ∧ CountsRight d ∧
        d.attached.length = 3 := by
  have hrun : returns (fun s => AllSteps shmStep Legal twoSharers (openDesk s fun _ => 0) ∧
      AllSteps shmStep (Attachable (bootState.mem (pa2kva pgdirPa))) twoSharers
        (openDesk s fun _ => 0) ∧
      returns (fun d => d.attached.length = 3)
        (run shmStep twoSharers (openDesk s fun _ => 0)) = true)
      (run handle [.exec 1 blank blank [], .exec 2 blank blank []] bootState) = true := by
    decide +kernel
  obtain ⟨s, hs, hlegal, hfits, hd⟩ := exists_of_returns hrun
  obtain ⟨d, hd, hlen⟩ := exists_of_returns hd
  refine ⟨s, d, hs, hd,
    ((shm_counts_right bootState_booted (fun e he => ?_) hs _ hlegal hfits).2 d hd).1, hlen⟩
  simp only [List.mem_cons, List.not_mem_nil, or_false] at he
  rcases he with rfl | rfl
  · exact ⟨trivial, by decide⟩
  · exact ⟨trivial, by decide⟩

/-- The only attachment is detached; the count that goes down is that of an entry that is not
in use. -/
theorem shm_counts_wrong_detach :
    ∃ s d, run handle [.exec 1 blank blank []] bootState = .ok s ∧
      AllSteps shmStep Legal [.get 1 5, .dt 1 (userStackAddr - 2 * 4096)]
        (openDesk s fun _ => 0) ∧
      run shmStep [.get 1 5, .dt 1 (userStackAddr - 2 * 4096)] (openDesk s fun _ => 0) = .ok d ∧
      ¬ CountsRight d := by
  have hrun : returns (fun s => AllSteps shmStep Legal [.get 1 5, .dt 1 (userStackAddr - 2 * 4096)]
        (openDesk s fun _ => 0) ∧
      returns (fun d => ¬ CountsRight d) (run shmStep
        [.get 1 5, .dt 1 (userStackAddr - 2 * 4096)] (openDesk s fun _ => 0)) = true)
      (run handle [.exec 1 blank blank []] bootState) = true := by
    decide +kernel
  obtain ⟨s, hs, hlegal, hd⟩ := exists_of_returns hrun
  obtain ⟨d, hd, hwrong⟩ := exists_of_returns hd
  exact ⟨s, d, hs, hlegal, hd, hwrong⟩

end Mm
