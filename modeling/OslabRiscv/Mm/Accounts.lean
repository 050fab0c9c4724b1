import OslabRiscv.Mm.Runs

/-!
# The accounts of frames and pages

What the invariant says about the lists of descriptors: how many pages are in memory,
which frames they have, where those that are out have gone.  The sectors of these are
different as long as the counter of sectors, which has 32 bits and never goes back, has
not come round.
-/

namespace Mm

open Outcome

variable {root : Nat → Pte} {own : Owners} {s : State} {p id k t i va : Nat}

/-- The entry of the page `id` of `p` is entry `i` of `t`. -/
def EntryAt (s : State) (p id t i : Nat) : Prop :=
  (s.pages id).pte = some (t, i) ∧ i = vpn0 (s.pages id).uva ∧
    Leads (s.procs p).pgdir (s.pages id).uva t s

/-- Frames and pages are accounted for. -/
structure Accounts (root : Nat → Pte) (s : State) : Prop where
  resident : ∀ p, ((s.procs p).pagehead.filter fun id => (s.pages id).status ≠ .notInMem).length =
    (s.procs p).pagenum
  bound : ∀ p, (s.procs p).pagenum ≤ (s.procs p).upbound
  once : ∀ p, (s.procs p).pagehead.Nodup
  aligned : ∀ p, ∀ id ∈ (s.procs p).pagehead, (s.pages id).status ≠ .notInMem →
    (s.pages id).kva % 4096 = 0
  distinct : ∀ p q, ∀ id ∈ (s.procs p).pagehead, ∀ id' ∈ (s.procs q).pagehead,
    (s.pages id).status ≠ .notInMem → (s.pages id').status ≠ .notInMem →
    (s.pages id).kva = (s.pages id').kva → p = q ∧ id = id'
  out : ∀ p, ∀ id ∈ (s.procs p).pagehead, (s.pages id).status = .notInMem →
    (s.pages id).kva = 0 ∧ ∃ t i, EntryAt s p id t i ∧ (s.mem t i).has present = false ∧
      (s.mem t i).has inSd = true
  sectors : ∀ p q, ∀ id ∈ (s.procs p).pagehead, ∀ id' ∈ (s.procs q).pagehead,
    (s.pages id).status = .notInMem → (s.pages id').status = .notInMem →
    ∀ t i t' i', EntryAt s p id t i → EntryAt s q id' t' i' →
      getPfn (s.mem t i) = getPfn (s.mem t' i') → p = q ∧ id = id'
  full : ∀ p va t i, (s.procs p).live = true → User root (vpn2 va) →
    pteChecker va (s.procs p).pgdir s = some (t, i) → (s.mem t i).has inSd = true →
    (s.procs p).pagenum = (s.procs p).upbound

/-- A page is in the list of one process. -/
theorem Shape.owner_eq (h : Shape root own s) {q : Nat} (hp : id ∈ (s.procs p).pagehead)
    (hq : id ∈ (s.procs q).pagehead) : p = q := by
  obtain ⟨r, hr⟩ := (h.listed p id).mp hp
  obtain ⟨r', hr'⟩ := (h.listed q id).mp hq
  rw [hr] at hr'
  cases hr'
  rfl

theorem Shape.owned (h : Shape root own s) (hp : id ∈ (s.procs p).pagehead) : own id ≠ none := by
  obtain ⟨r, hr⟩ := (h.listed p id).mp hp
  rw [hr]
  simp

/-- The first 2^29 sectors of the counter are different. -/
theorem sector_inj {n m : Nat} (hn : n < 2 ^ 29) (hm : m < 2 ^ 29)
    (h : (2048 + 8 * n) % 2 ^ 32 = (2048 + 8 * m) % 2 ^ 32) : n = m := by
  omega

/-- The invariant gives the accounts while the sector counter has not come round. -/
theorem Sane.accounts (hs : Sane root own s) (hr : Rooted own s)
    (hlen : s.writes.length ≤ 2 ^ 29) : Accounts root s := by
  have h := hs.shape
  have hentry : ∀ p, ∀ id ∈ (s.procs p).pagehead, (s.pages id).status = .notInMem →
      ∃ t i, EntryAt s p id t i ∧ (s.mem t i).has present = false ∧
        (s.mem t i).has inSd = true ∧ (s.pages id).kva = 0 := by
    intro p id hid hout
    obtain ⟨q, i, π, tab, hown, hπ, htab, hpte, hkva, hp, hsd⟩ :=
      h.out_entry (h.owned hid) fun hcon => hcon hout
    have hq : p = q := by
      obtain ⟨r, hr⟩ := (h.listed p id).mp hid
      rw [hown] at hr
      cases hr
      rfl
    have hpath := (h.leaf id q _ hown (by simp [hπ])).1
    have htail := (List.cons.inj hpath).2
    refine ⟨(s.pages tab).kva, i, ⟨hpte, (List.cons.inj hpath).1, ?_⟩, hp, hsd, hkva⟩
    rw [hq]
    exact h.leads (by rw [← htail]; exact htab)
  constructor
  case resident =>
    intro p
    rw [← (hs.tally p).count, count, List.countP_eq_length_filter]
    rfl
  case bound => exact fun p => (hs.tally p).bound
  case once => exact h.nodup
  case aligned => exact fun p id hid hres => (h.frame id (h.owned hid) hres).2.1
  case distinct =>
    intro p q id hid id' hid' hres hres' heq
    have hids := h.frame_inj id id' (h.owned hid) (h.owned hid') hres hres' heq
    rw [← hids] at hid'
    exact ⟨h.owner_eq hid hid', hids⟩
  case out =>
    intro p id hid hout
    obtain ⟨t, i, hat, hp, hsd, hkva⟩ := hentry p id hid hout
    exact ⟨hkva, t, i, hat, hp, hsd⟩
  case sectors =>
    intro p q id hid id' hid' hout hout' t i t' i' hat hat' heq
    obtain ⟨slot, hst, hinj⟩ := hs.stored
    have hnr : ¬ Res s id := fun hcon => hcon hout
    have hnr' : ¬ Res s id' := fun hcon => hcon hout'
    obtain ⟨hlt, t₁, i₁, hpte, hpfn⟩ := hst id (h.owned hid) hnr
    obtain ⟨hlt', t₂, i₂, hpte', hpfn'⟩ := hst id' (h.owned hid') hnr'
    rw [hat.1] at hpte
    rw [hat'.1] at hpte'
    cases hpte
    cases hpte'
    have hids : id = id' := by
      refine hinj id id' (h.owned hid) (h.owned hid') hnr hnr' ?_
      refine sector_inj (lt_of_lt_of_le hlt hlen) (lt_of_lt_of_le hlt' hlen) ?_
      unfold getPfn at heq
      rw [hpfn, hpfn'] at heq
      omega
    rw [← hids] at hid'
    exact ⟨h.owner_eq hid hid', hids⟩
  case full =>
    intro p va t i hlive hu hc hsd
    obtain ⟨_, k, _, _, _, _, hk, _, _, hout, _⟩ := fault_mapped hs hr hlive hu hc
    exact (hs.tally p).full ⟨k, (h.listed p k).mpr ⟨_, hk⟩, (hout hsd).2⟩

/-- **Frames and pages are accounted for** in every state of every run from boot in which
programs keep to user addresses and there are no snapshots, as long as there have been at
most 2^29 evictions. -/
theorem frames_accounted {s₀ : State} {es : List Event} (hboot : Booted s₀)
    (hes : ∀ e ∈ es, UserEvent (s₀.mem (pa2kva pgdirPa)) e) (hrun : run handle es s₀ = .ok s)
    (hlen : s.writes.length ≤ 2 ^ 29) : Accounts (s₀.mem (pa2kva pgdirPa)) s := by
  obtain ⟨⟨own, hs, hr⟩, _⟩ := run_good hboot hes hrun
  exact hs.accounts hr hlen

theorem oneFrameLeft_user : ∀ e ∈ oneFrameLeft, UserEvent (bootState.mem (pa2kva pgdirPa)) e := by
  intro e he
  simp only [oneFrameLeft, List.mem_cons, List.not_mem_nil, or_false] at he
  rcases he with rfl | rfl | rfl | rfl | rfl
  · decide
  · decide
  · decide
  · decide
  · decide

theorem frames_accounted_oneFrameLeft :
    ∃ s, run handle oneFrameLeft bootState = .ok s ∧ s.writes.length = 2 ∧
      Accounts (bootState.mem (pa2kva pgdirPa)) s := by
  obtain ⟨s, hs, _, _, hlen, _⟩ := oneFrameLeft_rally
  exact ⟨s, hs, hlen, frames_accounted bootState_booted oneFrameLeft_user hs (by omega)⟩

theorem mem_rounds {e : Event} {vx vy n : Nat} (h : e ∈ rounds p vx vy n) :
    e = .load p vx ∨ e = .load p vy := by
  induction n with
  | zero => cases h
  | succ n ih =>
      rcases List.mem_cons.mp h with rfl | h
      · exact Or.inr rfl
      · rcases List.mem_cons.mp h with rfl | h
        · exact Or.inl rfl
        · exact ih h

/-- After 2^29 evictions the counter has come round, and a page is put away over one that
has been out all the time. -/
theorem frames_not_accounted_rounds :
    (∀ e ∈ oneFrameLeft ++ (rounds 1 0x22000 0x21000 268435455 ++ [.load 1 0x21000]),
        UserEvent (bootState.mem (pa2kva pgdirPa)) e) ∧
      ∃ s, run handle (oneFrameLeft ++ (rounds 1 0x22000 0x21000 268435455 ++ [.load 1 0x21000]))
          bootState = .ok s ∧ ¬ Accounts (bootState.mem (pa2kva pgdirPa)) s := by
  obtain ⟨n, hn⟩ : ∃ n, n = 268435455 := ⟨_, rfl⟩
  rw [← hn]
  refine ⟨fun e he => ?_, ?_⟩
  · rcases List.mem_append.mp he with he | he
    · exact oneFrameLeft_user e he
    · rcases List.mem_append.mp he with he | he
      · rcases mem_rounds he with rfl | rfl
        · decide
        · decide
      · rw [List.mem_singleton.mp he]
        decide
  · obtain ⟨s, hs, hrally, hsec, hlen, h31, hout, hpte, hpfn⟩ := oneFrameLeft_rally
    obtain ⟨s₁, hs₁, hrally₁, hsec₁, hlen₁, hpg₁, hmem₁, hpr₁⟩ := hrally.rounds n
    obtain ⟨s₂, hs₂, hrally₂, _, _, hpg₂, hmem₂, hpfn₂, hpr₂⟩ := hrally₁.turn
    have hrun₁ : run handle (oneFrameLeft ++ rounds 1 0x22000 0x21000 n) bootState = .ok s₁ := by
      rw [run_append_ok hs, hs₁]
    have hdrawn : Drawn s₁ := run_invariant (C := fun _ _ => True)
      (fun _ e _ h _ hstep => (handle_drawn h e).of_ok hstep) _ _ _ bootState_booted.drawn
      (allSteps_true _ _) hrun₁
    have hsector : s₁.sector = 2048 := by
      have h1 := hdrawn.sector
      rw [hsec] at hsec₁
      omega
    have hrun : run handle (oneFrameLeft ++ (rounds 1 0x22000 0x21000 n ++ [.load 1 0x21000]))
        bootState = .ok s₂ := by
      rw [run_append_ok hs, run_append_ok hs₁]
      simp only [run, hs₂]
      rfl
    refine ⟨s₂, hrun, fun hacc => ?_⟩
    have hprocs : s₂.procs = s.procs := hpr₂.trans hpr₁
    have hpg : s₂.pages 31 = s.pages 31 := by
      rw [hpg₂ 31 (by decide) (by decide), hpg₁ 31 (by decide) (by decide)]
    have hmem : s₂.mem 0xffffffc052011000 32 = s.mem 0xffffffc052011000 32 := by
      rw [hmem₂ 32 (by decide) (by decide), hmem₁ 32 (by decide) (by decide)]
    have h31' : 31 ∈ (s₂.procs 1).pagehead := by
      rw [hprocs]
      exact h31
    have hout' : (s₂.pages 31).status = .notInMem := by
      rw [hpg]
      exact hout
    -- the entries of the two pages
    obtain ⟨_, t, i, hat, _⟩ := hacc.out 1 31 h31' hout'
    obtain ⟨_, t', i', hat', _⟩ := hacc.out 1 33 hrally₂.mem_y hrally₂.pageY.1
    have hti : some (t, i) = some (0xffffffc052011000, 32) := by
      rw [← hat.1, hpg]
      exact hpte
    have hti' : some (t', i') = some (0xffffffc052011000, vpn0 0x22000) := by
      rw [← hat'.1]
      exact hrally₂.pageY.2.2
    injection hti with hpair
    injection hpair with ht hi
    injection hti' with hpair'
    injection hpair' with ht' hi'
    have heq : getPfn (s₂.mem t i) = getPfn (s₂.mem t' i') := by
      unfold getPfn
      rw [ht, hi, ht', hi', hmem, hpfn, hpfn₂, hsector]
      decide
    have hcon := (hacc.sectors 1 1 31 h31' 33 hrally₂.mem_y hout' hrally₂.pageY.1 t i t' i' hat hat'
      heq).2
    exact absurd hcon (by decide)

end Mm
