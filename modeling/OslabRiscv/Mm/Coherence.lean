import OslabRiscv.Mm.Snapshots

/-!
# Descriptors and entries

A page that can be evicted is found by the address in its descriptor: the walk from there
ends on the one entry for its frame.  This holds over runs with snapshots as long as no
store is left to the copy-on-write branch, and fails after such a store.
-/

namespace Mm

open Outcome

variable {root : Nat → Pte} {own own' : Owners} {s s' : State} {p id k t i va : Nat}
  {π : List Nat}

/-- The walk from the page's address ends on the one entry for its frame among those for
user addresses; evicting it writes this frame out, clears it and leaves no entry for it. -/
structure Coherent (root : Nat → Pte) (p : Nat) (s : State) (id : Nat) : Prop where
  entry : ∃ t i, getPte (s.pages id).uva (s.procs p).pgdir s = .ok (t, i) ∧
    getPa (s.mem t i) = kva2pa (s.pages id).kva ∧
    ∀ va t' i', User root (vpn2 va) → getPte va (s.procs p).pgdir s = .ok (t', i') →
      getPa (s.mem t' i') = kva2pa (s.pages id).kva → t' = t ∧ i' = i
  evicts : ∃ s', swapToSd id p s = .ok ((s.pages id).kva, s') ∧
    (∀ j, j < 512 → s'.sd (s.sector + j / 64) (j % 64) = s.mem (s.pages id).kva j) ∧
    (∀ j, s'.mem (s.pages id).kva j = ⟨0, 0⟩) ∧
    ∀ va t' i', User root (vpn2 va) → getPte va (s'.procs p).pgdir s' = .ok (t', i') →
      getPa (s'.mem t' i') ≠ kva2pa (s.pages id).kva

theorem kva2pa_pageOf (e : Pte) : kva2pa (pageOf e) = getPa e := by
  unfold kva2pa pageOf pa2kva getPa getPfn kvaOffset
  omega

/-- Different frames have different physical addresses. -/
theorem kva2pa_inj {a b : Nat} (ha : Frame a) (hb : Frame b) (h : kva2pa a = kva2pa b) : a = b := by
  unfold Frame at ha hb
  unfold kva2pa at h
  simp only [kvaOffset] at *
  omega

/-- The root table of a process that has a page. -/
theorem Shape.root_of_path (h : Shape root own s) {a b : Nat} (hid : own id = some (p, some [a, b])) :
    ∃ d, own d = some (p, some []) := by
  obtain ⟨_, _, m, hm⟩ := h.parent id p _ _ hid
  obtain ⟨_, _, d, hd⟩ := h.parent m p _ _ hm
  exact ⟨d, hd⟩

/-- A walk at a user address ends on an entry of the process, for a page in memory. -/
theorem Shape.walked (h : Shape root own s) {d : Nat} (hd : own d = some (p, some []))
    (hu : User root (vpn2 va)) (hw : getPte va (s.procs p).pgdir s = .ok (t, i)) :
    ∃ id k π, own id = some (p, some [vpn1 va, vpn2 va]) ∧ t = (s.pages id).kva ∧ i = vpn0 va ∧
      own k = some (p, some π) ∧ π.length = 3 ∧ Res s k ∧
      getPa (s.mem t i) = kva2pa (s.pages k).kva := by
  obtain ⟨hi, hl, hp⟩ := leads_of_getPte hw
  simp only at hi hl hp
  obtain ⟨id, hid, ht⟩ := h.of_leads hd hu hl
  rw [ht, hi] at hp
  obtain ⟨k, π, hk, hπ, hres, hpage⟩ := h.mapped hid hp
  refine ⟨id, k, π, hid, ht, hi, hk, hπ, hres, ?_⟩
  rw [ht, hi, ← kva2pa_pageOf, hpage]

/-- Only the entry at its own path is for a page that is not shared. -/
theorem Shape.entry_unique (h : Shape root own s)
    (hid : own id = some (p, some [vpn1 va, vpn2 va]))
    (hp : (s.mem (s.pages id).kva (vpn0 va)).has present = true)
    (hk : own k ≠ none) (hres : Res s k) (hst : (s.pages k).status ≠ .copyOnWrite)
    (hpage : pageOf (s.mem (s.pages id).kva (vpn0 va)) = (s.pages k).kva) :
    own k = some (p, some (pathOf va)) := by
  rcases h.slot id p _ (vpn0 va) hid (by simp) (by simp) with ⟨hor, _⟩ | ⟨x, hx, hf⟩
  · rcases hor with ⟨habs, _⟩ | ⟨_, _, _, x, π, hx, _, hcow, hpage'⟩
    · rw [habs] at hp
      cases hp
    · have hresx : Res s x := by
        unfold Res
        rw [hcow]
        exact fun hcon => by cases hcon
      have hxk := h.frame_inj x k (by rw [hx]; simp) hk hresx hres (hpage'.symm.trans hpage)
      rw [hxk] at hcow
      exact absurd hcow hst
  · rcases hf with ⟨hresx, _, hpage', _⟩ | ⟨_, habs, _⟩
    · rw [← h.frame_inj x k (by rw [hx]; simp) hk hresx hres (hpage'.symm.trans hpage)]
      exact hx
    · rw [habs] at hp
      cases hp

/-- **Pages that can be evicted are coherent.** -/
theorem Sane.coherent (hs : Sane root own s) (hmem : id ∈ (s.procs p).pagehead)
    (hst : (s.pages id).status = .swapable) : Coherent root p s id := by
  have h := hs.shape
  obtain ⟨tab, htab, hown, hres, hpte, hp, _, hframe⟩ := h.swapable_entry hs.settled hmem hst
  obtain ⟨d, hd⟩ := h.root_of_path htab
  have hids : own id ≠ none := by
    rw [hown]
    simp
  constructor
  case entry =>
    refine ⟨_, _, hpte, ?_, fun va t' i' hu hw hpa => ?_⟩
    · rw [← hframe, kva2pa_pageOf]
    · obtain ⟨hi, hl, hp'⟩ := leads_of_getPte hw
      simp only at hi hl hp'
      obtain ⟨tab', htab', ht⟩ := h.of_leads hd hu hl
      rw [ht, hi] at hp' hpa
      obtain ⟨k, π, hk, _, hresk, hpage⟩ := h.mapped htab' hp'
      have hkids : (s.pages k).kva = (s.pages id).kva := by
        refine kva2pa_inj (h.frameOf (by rw [hk]; simp) hresk) (h.frameOf hids hres) ?_
        rw [← hpage, kva2pa_pageOf, hpa]
      have hpath := h.entry_unique htab' hp' hids hres (by rw [hst]; decide) (hpage.trans hkids)
      rw [hown] at hpath
      have hcons := Option.some.inj (Prod.mk.inj (Option.some.inj hpath)).2
      obtain ⟨hi', htail⟩ := List.cons.inj hcons
      rw [← htail] at htab'
      rw [ht, hi, h.path_inj tab' tab p _ htab' htab]
      exact ⟨rfl, hi'.symm⟩
  case evicts =>
    obtain ⟨tab', s', hs', hsp⟩ := swapToSd_spill h hs.settled hmem hst
    have hfr := hsp.frame
    refine ⟨s', hs', fun j hj => ?_, fun j => ?_, fun va t' i' hu hw hpa => ?_⟩
    · have hword : (s.sector + j / 64 - s.sector) * 64 + j % 64 = j := by omega
      rw [hsp.evicts.sd, hfr, if_pos (by omega), hword]
    · rw [← hfr]
      exact hsp.evicts.frame j
    · have h' := hsp.shape h
      obtain ⟨_, k, π, _, _, _, hk, _, hresk, hpa'⟩ := h'.walked hd hu hw
      obtain ⟨_, hfree⟩ := hsp.free h
      refine hfree k (by rw [hk]; simp) hresk ?_
      refine kva2pa_inj (h'.frameOf (by rw [hk]; simp) hresk) (h.frameOf hids hres) ?_
      rw [← hpa', hpa]

/-! ## Runs with snapshots -/

/-- The address a snapshot finds is one that processes may use. -/
def newIsUser (root : Nat → Pte) (p va : Nat) (s : State) : Bool :=
  match probe (s.procs p).pgdir s (2 ^ 27) va with
  | .ok v => decide (User root (vpn2 v))
  | .error _ => true

/-- Programs keep to addresses the kernel does not use, and snapshots are taken of pages in
memory. -/
def PageEvent (root : Nat → Pte) (s : State) : Event → Prop
  | .exec _ _ _ image =>
    User root (vpn2 (userStackAddr - 4096)) ∧ ∀ c ∈ image, User root (vpn2 c.1)
  | .load _ va | .store _ va | .put _ va _ => User root (vpn2 va)
  | .snapshot p va => (s.procs p).live = true →
    User root (vpn2 va) ∧ isPresent p va s = true ∧ newIsUser root p va s = true

instance (root : Nat → Pte) (s : State) : ∀ e, Decidable (PageEvent root s e)
  | .exec _ _ _ image => (inferInstance :
      Decidable (User root (vpn2 (userStackAddr - 4096)) ∧ ∀ c ∈ image, User root (vpn2 c.1)))
  | .load _ va => (inferInstance : Decidable (User root (vpn2 va)))
  | .store _ va => (inferInstance : Decidable (User root (vpn2 va)))
  | .put _ va _ => (inferInstance : Decidable (User root (vpn2 va)))
  | .snapshot p va => (inferInstance : Decidable ((s.procs p).live = true →
      User root (vpn2 va) ∧ isPresent p va s = true ∧ newIsUser root p va s = true))

/-- No store is left to the copy-on-write branch. -/
def NoCopy (s : State) : Event → Prop
  | .store p va => (s.procs p).live = true → copies p va s = false
  | _ => True

instance (s : State) : ∀ e, Decidable (NoCopy s e)
  | .exec .. | .load .. | .put .. | .snapshot .. => instDecidableTrue
  | .store p va => (inferInstance : Decidable ((s.procs p).live = true → copies p va s = false))

/-- The step lemma with snapshots. -/
theorem handle_shares {e : Event} (hg : Good root s) (he : PageEvent root s e) (hn : NoCopy s e) :
    Holds AnyStop (Good root) (handle e s) := by
  obtain ⟨own, hs, hr⟩ := hg
  have hgood : ∀ {gone : Nat → Prop} {r : Except Stop State},
      Holds AnyStop (fun s' => ∃ own', After root gone own s own' s') r →
        Holds AnyStop (Good root) r := by
    intro gone r h
    refine h.mono fun s' hex => ?_
    obtain ⟨own', hafter⟩ := hex
    exact hafter.good
  cases e with
  | exec p stack args image => exact hgood (doExec_after hs hr p stack args he.1 he.2)
  | load p va =>
      simp only [handle]
      split_ifs with hlive
      · exact hgood (handleLoadPageFault_after hs hr hlive he)
      · exact ⟨own, hs, hr⟩
  | store p va =>
      simp only [handle]
      split_ifs with hlive
      · exact hgood (handleStorePageFault_after hs hr hlive he (Or.inr (hn hlive)))
      · exact ⟨own, hs, hr⟩
  | put p va word =>
      simp only [handle]
      split_ifs with hlive
      · obtain ⟨own', hafter⟩ := put_after hs hr hlive he word
        exact hafter.good
      · exact ⟨own, hs, hr⟩
  | snapshot p va =>
      simp only [handle]
      split_ifs with hlive
      · obtain ⟨hu, hpres, hnew⟩ := he hlive
        have hsnap := doSnapshot_shares hs hr hlive hu hpres fun v hv => ?_
        · cases hrun : doSnapshot p va s with
          | error e => trivial
          | ok r =>
              rw [hrun] at hsnap
              obtain ⟨own', hshares⟩ := hsnap
              exact ⟨own', hshares.sane, hshares.rooted hr⟩
        · unfold newIsUser at hnew
          rw [hv] at hnew
          exact of_decide_eq_true hnew
      · exact ⟨own, hs, hr⟩

/-- **Evictable pages are coherent** in every state of every run from boot, with snapshots,
in which no store is left to the copy-on-write branch. -/
theorem evictable_coherent {s₀ : State} {es : List Event} (hboot : Booted s₀)
    (hes : AllSteps handle (fun s e => PageEvent (s₀.mem (pa2kva pgdirPa)) s e ∧ NoCopy s e) es s₀)
    (hrun : run handle es s₀ = .ok s) :
    ∀ p, ∀ id ∈ (s.procs p).pagehead, (s.pages id).status = .swapable →
      Coherent (s₀.mem (pa2kva pgdirPa)) p s id := by
  have hg : Good (s₀.mem (pa2kva pgdirPa)) s := by
    refine run_invariant (I := Good (s₀.mem (pa2kva pgdirPa)))
      (C := fun s e => PageEvent (s₀.mem (pa2kva pgdirPa)) s e ∧ NoCopy s e)
      (fun s e s' hg he hstep => ?_) es s₀ s hboot.good hes hrun
    exact (handle_shares hg he.1 he.2).of_ok hstep
  obtain ⟨own, hs, _⟩ := hg
  exact fun p id hid hst => hs.coherent hid hst

/-- A process that takes two snapshots of a page and goes on at another one. -/
def twoSnapshots : List Event :=
  [.exec 1 blank blank [(0x10000, blank)], .load 1 0x20000, .snapshot 1 0x20000,
    .snapshot 1 0x21000, .load 1 0x30000]

theorem evictable_coherent_twoSnapshots :
    ∃ s, run handle twoSnapshots bootState = .ok s ∧
      ∀ p, ∀ id ∈ (s.procs p).pagehead, (s.pages id).status = .swapable →
        Coherent (bootState.mem (pa2kva pgdirPa)) p s id := by
  have hrun : returns (fun _ => True) (run handle twoSnapshots bootState) = true := by
    decide +kernel
  obtain ⟨s, hs, _⟩ := exists_of_returns hrun
  refine ⟨s, hs, evictable_coherent bootState_booted ?_ hs⟩
  decide +kernel

/-- The page that a store to a shared page takes is not found by the address in its
descriptor. -/
theorem evictable_not_coherent_copy :
    AllSteps handle (fun s e => PageEvent (bootState.mem (pa2kva pgdirPa)) s e)
        [.exec 1 blank blank [(0x10000, blank)], .load 1 0x20000, .snapshot 1 0x20000,
          .store 1 0x20000] bootState ∧
      ∃ s, run handle [.exec 1 blank blank [(0x10000, blank)], .load 1 0x20000,
          .snapshot 1 0x20000, .store 1 0x20000] bootState = .ok s ∧
        ∃ id ∈ (s.procs 1).pagehead, (s.pages id).status = .swapable ∧
          ¬ Coherent (bootState.mem (pa2kva pgdirPa)) 1 s id := by
  refine ⟨by decide +kernel, ?_⟩
  have hrun : returns (fun s => 9 ∈ (s.procs 1).pagehead ∧ (s.pages 9).status = .swapable ∧
      getPte (s.pages 9).uva (s.procs 1).pgdir s = .error .assertFailed)
      (run handle [.exec 1 blank blank [(0x10000, blank)], .load 1 0x20000,
        .snapshot 1 0x20000, .store 1 0x20000] bootState) = true := by
    decide +kernel
  obtain ⟨s, hs, hmem, hst, hpte⟩ := exists_of_returns hrun
  refine ⟨s, hs, 9, hmem, hst, fun hcoh => ?_⟩
  obtain ⟨t, i, hok, _⟩ := hcoh.entry
  rw [hpte] at hok
  cases hok

end Mm
