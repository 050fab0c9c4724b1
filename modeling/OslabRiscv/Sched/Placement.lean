import OslabRiscv.Sched.Queues

/-!
# Where the PCBs are

`Tidy n` says, of a machine with `n` cores, that the status of every PCB agrees
with the queue it is in, which also holds in the middle of a call; between two
kernel entries moreover what a core runs is marked running.  Every call is put
together from a few moves of one PCB, and each of them keeps a state tidy.

`Quiet` collects what the scheduler and the wake-ups leave alone.
-/

namespace Sched

open IntrusiveList

section Placed

variable (n : Nat)

/-- A core runs the PCB. -/
def OnCore (s : State) (i : Nat) : Prop := ∃ c, c < n ∧ s.coreRunning c = .task i

/-- The PCB is where its status says. -/
def Placed (s : State) (q : Node → List Nat) (i : Nat) : Prop :=
  match (s.pcb i).status with
  | .ready => ∀ h, i ∈ q h ↔ h = .ready
  | .blocked => ∃ h, h ≠ .ready ∧ ∀ b, i ∈ q b ↔ b = h
  | .running => OnCore n s i ∧ ∀ h, i ∉ q h
  | .exited | .available => q (.wait i) = [] ∧ ∀ h, i ∉ q h

/-- Every PCB is where its status says, and no two cores run the same one. -/
structure Tidy (s : State) (q : Node → List Nat) : Prop where
  queues : Queues s q
  bound : ∀ h i, i ∈ q h → i < numMaxTask
  placed : ∀ i, i < numMaxTask → Placed n s q i
  core : ∀ c i, c < n → s.coreRunning c = .task i → i < numMaxTask
  apart : ∀ c d i, c < n → d < n → s.coreRunning c = .task i → s.coreRunning d = .task i → c = d

/-- What the cores in `C` run is marked running. -/
def Busy (C : Nat → Prop) (s : State) : Prop :=
  ∀ c i, C c → s.coreRunning c = .task i → (s.pcb i).status = .running

/-- The state between two kernel entries. -/
structure Settled (s : State) (q : Node → List Nat) : Prop extends Tidy n s q where
  busy : Busy (· < n) s

end Placed

/-- The PCB is in use. -/
def Live (s : State) (i : Nat) : Prop :=
  (s.pcb i).status ≠ .exited ∧ (s.pcb i).status ≠ .available

section Read

variable {n : Nat} {s : State} {q : Node → List Nat} {h : Node} {i : Nat}

/-- Different slots are fewer than the rounds a loop over a queue may take. -/
theorem length_lt_rounds {l : List Nat} (hnodup : l.Nodup) (hbound : ∀ j ∈ l, j < numMaxTask) :
    l.length < rounds := by
  have hsub : l.toFinset ⊆ Finset.range numMaxTask := by
    intro j hj
    exact Finset.mem_range.mpr (hbound j (List.mem_toFinset.mp hj))
  have hcard := Finset.card_le_card hsub
  rw [List.toFinset_card_of_nodup hnodup, Finset.card_range] at hcard
  exact Nat.lt_succ_of_le hcard

/-- No queue is longer than the loops over it go. -/
theorem Tidy.length_lt (ht : Tidy n s q) : (q h).length < rounds :=
  length_lt_rounds ht.queues.nodup (ht.bound h)

/-- The list read off a queue is the one the ring holds. -/
theorem Tidy.queued_eq (ht : Tidy n s q) (hh : IsHead s h) : queued h s = q h :=
  ht.queues.queued_eq hh ht.length_lt

/-- The status of a PCB in a queue. -/
theorem Tidy.status_of_mem (ht : Tidy n s q) (hi : i ∈ q h) :
    (s.pcb i).status = if h = .ready then .ready else .blocked := by
  have hp := ht.placed i (ht.bound h i hi)
  unfold Placed at hp
  split at hp
  · next hst => rw [if_pos ((hp h).mp hi), hst]
  · next hst =>
      obtain ⟨b, hb, hmem⟩ := hp
      rw [if_neg ((hmem h).mp hi ▸ hb), hst]
  · exact absurd hi (hp.2 h)
  · exact absurd hi (hp.2 h)
  · exact absurd hi (hp.2 h)

/-- A PCB in a queue is in use. -/
theorem Tidy.live_of_mem (ht : Tidy n s q) (hi : i ∈ q h) : Live s i := by
  have hst := ht.status_of_mem hi
  unfold Live
  rw [hst]
  split <;> exact ⟨by simp, by simp⟩

/-- A running PCB has a core and is in no queue. -/
theorem Tidy.running (ht : Tidy n s q) (hi : i < numMaxTask)
    (hst : (s.pcb i).status = .running) : OnCore n s i ∧ ∀ h, i ∉ q h := by
  have hp := ht.placed i hi
  unfold Placed at hp
  rw [hst] at hp
  exact hp

/-- A PCB that is not in use is in no queue, and nobody waits for it. -/
theorem Tidy.ended (ht : Tidy n s q) (hi : i < numMaxTask) (hl : ¬ Live s i) :
    q (.wait i) = [] ∧ ∀ h, i ∉ q h := by
  have hp := ht.placed i hi
  unfold Placed at hp
  split at hp
  · next hst => exact absurd ⟨by rw [hst]; simp, by rw [hst]; simp⟩ hl
  · next hst => exact absurd ⟨by rw [hst]; simp, by rw [hst]; simp⟩ hl
  · next hst => exact absurd ⟨by rw [hst]; simp, by rw [hst]; simp⟩ hl
  · exact hp
  · exact hp

end Read

/-! ## Moving one PCB -/

section Move

variable {n : Nat} {s s' : State} {q q' : Node → List Nat} {h : Node} {i : Nat}

/-- One PCB changes its status and its place, and all others stay. -/
theorem Tidy.move (ht : Tidy n s q) (hq : Queues s' q') (hi : i < numMaxTask)
    (hst : ∀ j, j ≠ i → (s'.pcb j).status = (s.pcb j).status)
    (hmem : ∀ b j, j ≠ i → (j ∈ q' b ↔ j ∈ q b))
    (hcore : s'.coreRunning = s.coreRunning)
    (hwait : ∀ j, j ≠ i → i ∈ q' (.wait j) → Live s j)
    (hself : Placed n s' q' i) : Tidy n s' q' := by
  refine ⟨hq, ?_, ?_, ?_, ?_⟩
  · intro b j hj
    by_cases hji : j = i
    · exact hji ▸ hi
    · exact ht.bound b j ((hmem b j hji).mp hj)
  · intro j hj
    by_cases hji : j = i
    · exact hji ▸ hself
    have hp := ht.placed j hj
    have hended : q (.wait j) = [] → ¬ Live s j → q' (.wait j) = [] := by
      intro hnil hl
      rw [List.eq_nil_iff_forall_not_mem]
      intro x hx
      by_cases hxi : x = i
      · exact hl (hwait j hji (hxi ▸ hx))
      · have hold := (hmem _ x hxi).mp hx
        rw [hnil] at hold
        cases hold
    unfold Placed at hp ⊢
    rw [hst j hji]
    split at hp
    · intro b
      rw [hmem b j hji]
      exact hp b
    · obtain ⟨b, hb, hmemb⟩ := hp
      refine ⟨b, hb, fun c => ?_⟩
      rw [hmem c j hji]
      exact hmemb c
    · refine ⟨?_, fun b => ?_⟩
      · unfold OnCore
        rw [hcore]
        exact hp.1
      · rw [hmem b j hji]
        exact hp.2 b
    · next hex =>
        refine ⟨hended hp.1 (fun hl => hl.1 hex), fun b => ?_⟩
        rw [hmem b j hji]
        exact hp.2 b
    · next hav =>
        refine ⟨hended hp.1 (fun hl => hl.2 hav), fun b => ?_⟩
        rw [hmem b j hji]
        exact hp.2 b
  · intro c j hc hj
    rw [hcore] at hj
    exact ht.core c j hc hj
  · intro c d j hc hd hcj hdj
    rw [hcore] at hcj hdj
    exact ht.apart c d j hc hd hcj hdj

/-- What no status and no queue depends on may change freely. -/
theorem Tidy.congr (ht : Tidy n s q) (hlinks : s'.links = s.links)
    (hst : ∀ j, (s'.pcb j).status = (s.pcb j).status)
    (hcore : s'.coreRunning = s.coreRunning) : Tidy n s' q := by
  refine ⟨ht.queues.congr hlinks (fun j _ => by rw [hst j]), ht.bound, ?_, ?_, ?_⟩
  · intro j hj
    have hp := ht.placed j hj
    unfold Placed OnCore at hp ⊢
    rw [hst j, hcore]
    exact hp
  · rw [hcore]
    exact ht.core
  · rw [hcore]
    exact ht.apart

theorem Busy.congr {C : Nat → Prop} (hb : Busy C s)
    (hst : ∀ j, (s.pcb j).status = .running → (s'.pcb j).status = .running)
    (hcore : s'.coreRunning = s.coreRunning) : Busy C s' := by
  intro c j hc hj
  rw [hcore] at hj
  exact hst j (hb c j hc hj)

@[simp] theorem setStatus_links (j : Nat) (st : Status) : (setStatus j st s).links = s.links := rfl

@[simp] theorem setStatus_coreRunning (j : Nat) (st : Status) :
    (setStatus j st s).coreRunning = s.coreRunning := rfl

@[simp] theorem setStatus_mlocks (j : Nat) (st : Status) :
    (setStatus j st s).mlocks = s.mlocks := rfl

@[simp] theorem setStatus_processId (j : Nat) (st : Status) :
    (setStatus j st s).processId = s.processId := rfl

theorem setStatus_pcb_self (j : Nat) (st : Status) : ((setStatus j st s).pcb j).status = st := by
  change (Function.update s.pcb j _ j).status = st
  rw [Function.update_self]

theorem setStatus_pcb_of_ne {j k : Nat} (hne : k ≠ j) (st : Status) :
    (setStatus j st s).pcb k = s.pcb k :=
  Function.update_of_ne hne _ _

/-- No pid changes. -/
theorem setStatus_pid (j k : Nat) (st : Status) :
    ((setStatus j st s).pcb k).pid = (s.pcb k).pid := by
  by_cases hk : k = j
  · subst hk
    change (Function.update s.pcb k _ k).pid = _
    rw [Function.update_self]
  · rw [setStatus_pcb_of_ne hk]

/-- A PCB that is not the new one is where it was. -/
theorem mem_update_append {b : Node} {j : Nat} (hji : j ≠ i) :
    j ∈ Function.update q h (q h ++ [i]) b ↔ j ∈ q b := by
  by_cases hb : b = h
  · subst hb
    rw [Function.update_self, List.mem_append, List.mem_singleton]
    exact ⟨fun hj => hj.resolve_right hji, Or.inl⟩
  · rw [Function.update_of_ne hb]

theorem mem_update_append_self {b : Node} (hi : ∀ b, i ∉ q b) :
    i ∈ Function.update q h (q h ++ [i]) b ↔ b = h := by
  by_cases hb : b = h
  · subst hb
    rw [Function.update_self]
    simp
  · rw [Function.update_of_ne hb]
    exact ⟨fun hmem => absurd hmem (hi b), fun heq => absurd heq hb⟩

/-- `del_queue`, whether the PCB is in a queue or not. -/
theorem Queues.del_any (hq : Queues s q) : Queues (delQueue i s) (fun b => (q b).erase i) := by
  by_cases hi : ∃ b, i ∈ q b
  · obtain ⟨b, hb⟩ := hi
    have hdel := hq.del hb
    have heq : Function.update q b ((q b).erase i) = fun b => (q b).erase i := by
      funext c
      by_cases hc : c = b
      · subst hc
        rw [Function.update_self]
      · rw [Function.update_of_ne hc, List.erase_of_not_mem]
        intro hmem
        exact hc (hq.unique hmem hb)
    rw [heq] at hdel
    exact hdel
  · have hfree : ∀ b, i ∉ q b := fun b hb => hi ⟨b, hb⟩
    have heq : (fun b => (q b).erase i) = q := by
      funext c
      exact List.erase_of_not_mem (hfree c)
    rw [hq.del_free hfree, heq]
    exact hq

/-- A PCB that was taken out of a queue is not in it. -/
theorem Queues.not_mem_erase (hq : Queues s q) (b : Node) : i ∉ (q b).erase i :=
  hq.nodup.not_mem_erase

/-- A PCB in no queue, given the status that goes with a queue, enters it. -/
theorem Tidy.enqueue (ht : Tidy n s q) (hq : Queues s' q) (hi : i < numMaxTask)
    (hfree : ∀ b, i ∉ q b) (hst : ∀ j, j ≠ i → (s'.pcb j).status = (s.pcb j).status)
    (hcore : s'.coreRunning = s.coreRunning) (hh : IsHead s' h)
    (hself : (s'.pcb i).status = if h = .ready then .ready else .blocked)
    (hlive : ∀ j, h = .wait j → j ≠ i → Live s j) :
    ∃ l, addQueue h i s' = .ok { s' with links := l } ∧
      Tidy n { s' with links := l } (Function.update q h (q h ++ [i])) := by
  obtain ⟨l, hadd, hq'⟩ := hq.add hh hfree
  refine ⟨l, hadd, ht.move hq' hi hst (fun b j hj => mem_update_append hj) hcore ?_ ?_⟩
  · intro j hj hmem
    exact hlive j ((mem_update_append_self hfree).mp hmem).symm hj
  · unfold Placed
    simp only [hself]
    by_cases hready : h = .ready
    · rw [if_pos hready]
      intro b
      rw [mem_update_append_self hfree, hready]
    · rw [if_neg hready]
      exact ⟨h, hready, fun b => mem_update_append_self hfree⟩

/-- No PCB becomes free. -/
theorem setStatus_available {st : Status} (hst : st ≠ .available)
    (hi : (s.pcb i).status ≠ .available) (j : Nat) :
    ((setStatus i st s).pcb j).status = .available ↔ (s.pcb j).status = .available := by
  by_cases hj : j = i
  · subst hj
    rw [setStatus_pcb_self]
    exact ⟨fun heq => absurd heq hst, fun heq => absurd heq hi⟩
  · rw [setStatus_pcb_of_ne hj]

/-- The queues after PCB `i` was woken. -/
def woken (i : Nat) (q : Node → List Nat) : Node → List Nat :=
  Function.update (fun b => (q b).erase i) .ready (q .ready ++ [i])

theorem woken_of_ne {b : Node} (hb : b ≠ .ready) : woken i q b = (q b).erase i :=
  Function.update_of_ne hb _ _

/-- The other PCBs are where they were. -/
theorem mem_woken {b : Node} {j : Nat} (hji : j ≠ i) : j ∈ woken i q b ↔ j ∈ q b := by
  unfold woken
  by_cases hb : b = .ready
  · subst hb
    rw [Function.update_self, List.mem_append, List.mem_singleton]
    exact ⟨fun hj => hj.resolve_right hji, Or.inl⟩
  · rw [Function.update_of_ne hb]
    exact List.mem_erase_of_ne hji

/-- A blocked PCB is taken out of its queue and made ready. -/
theorem Tidy.wake (ht : Tidy n s q) (hi : i ∈ q h) (hne : h ≠ .ready) :
    ∃ l, addQueue .ready i (setStatus i .ready (delQueue i s)) =
        .ok { setStatus i .ready s with links := l } ∧
      Tidy n { setStatus i .ready s with links := l } (woken i q) := by
  have hbound := ht.bound h i hi
  have hready : i ∉ q .ready := fun hmem => hne (ht.queues.unique hi hmem)
  have hq₁ : Queues (setStatus i .ready (delQueue i s)) (fun b => (q b).erase i) :=
    ht.queues.del_any.congr rfl fun j _ =>
      setStatus_available (by simp) (ht.live_of_mem hi).2 j
  have hfree : ∀ b, i ∉ (fun b => (q b).erase i) b := fun b => ht.queues.not_mem_erase b
  obtain ⟨l, hadd, hq₂⟩ := hq₁.add (h := .ready) trivial hfree
  have heq : Function.update (fun b => (q b).erase i) .ready ((q .ready).erase i ++ [i]) =
      woken i q := by
    rw [List.erase_of_not_mem hready]
    rfl
  rw [heq] at hq₂
  have hself : ∀ b, i ∈ woken i q b ↔ b = .ready := by
    intro b
    rw [← heq]
    exact mem_update_append_self hfree
  refine ⟨l, hadd, ht.move hq₂ hbound ?_ (fun b j hj => mem_woken hj) rfl ?_ ?_⟩
  · intro j hj
    change ((setStatus i .ready s).pcb j).status = _
    rw [setStatus_pcb_of_ne hj]
  · intro j _ hmem
    cases (hself _).mp hmem
  · unfold Placed
    simp only [setStatus_pcb_self]
    exact hself

/-- A PCB with no waiters left ends. -/
theorem Tidy.drop (ht : Tidy n s q) (hi : i < numMaxTask) (hav : (s.pcb i).status ≠ .available)
    (hwait : q (.wait i) = []) :
    Tidy n (setStatus i .exited (delQueue i s)) (fun b => (q b).erase i) := by
  have hq₁ : Queues (setStatus i .exited (delQueue i s)) (fun b => (q b).erase i) :=
    ht.queues.del_any.congr rfl fun j _ => setStatus_available (by simp) hav j
  refine ht.move hq₁ hi ?_ (fun b j hj => List.mem_erase_of_ne hj) rfl ?_ ?_
  · intro j hj
    change ((setStatus i .exited s).pcb j).status = _
    rw [setStatus_pcb_of_ne hj]
  · intro j _ hmem
    exact absurd hmem (ht.queues.not_mem_erase _)
  · unfold Placed
    rw [setStatus_pcb_self]
    refine ⟨?_, fun b => ht.queues.not_mem_erase b⟩
    simp only [hwait]
    rfl

/-- The cores are given other PCBs, none of those marked running being lost. -/
theorem Tidy.recore {f : Nat → Who} (ht : Tidy n s q)
    (hrun : ∀ j, (s.pcb j).status = .running → OnCore n s j → ∃ c, c < n ∧ f c = .task j)
    (hcore : ∀ c j, c < n → f c = .task j → j < numMaxTask)
    (hapart : ∀ c d j, c < n → d < n → f c = .task j → f d = .task j → c = d) :
    Tidy n { s with coreRunning := f } q := by
  refine ⟨ht.queues.congr rfl (fun _ _ => Iff.rfl), ht.bound, ?_, hcore, hapart⟩
  intro j hj
  have hp := ht.placed j hj
  unfold Placed at hp ⊢
  change match (s.pcb j).status with
    | .ready => ∀ h, j ∈ q h ↔ h = .ready
    | .blocked => ∃ h, h ≠ .ready ∧ ∀ b, j ∈ q b ↔ b = h
    | .running => OnCore n { s with coreRunning := f } j ∧ ∀ h, j ∉ q h
    | .exited | .available => q (.wait j) = [] ∧ ∀ h, j ∉ q h
  split at hp
  · exact hp
  · exact hp
  · next hst => exact ⟨hrun j hst hp.1, hp.2⟩
  · exact hp
  · exact hp

end Move

/-! ## What the scheduler leaves alone -/

/-- Only the queues in `E` change, and no PCB starts, ends or changes its pid. -/
structure Quiet (E : List Node) (s : State) (q : Node → List Nat) (s' : State)
    (q' : Node → List Nat) : Prop where
  queues : ∀ h, h ∉ E → q' h = q h
  pid : ∀ j, (s'.pcb j).pid = (s.pcb j).pid
  status : ∀ j, (s.pcb j).status = .exited ∨ (s.pcb j).status = .available ∨
    (s'.pcb j).status = .exited ∨ (s'.pcb j).status = .available →
    (s'.pcb j).status = (s.pcb j).status
  processId : s'.processId = s.processId
  mlocks : s'.mlocks = s.mlocks
  barriers : s'.barriers = s.barriers

/-- Moreover the cores go on with what they run. -/
structure Wakes (E : List Node) (s : State) (q : Node → List Nat) (s' : State)
    (q' : Node → List Nat) : Prop extends Quiet E s q s' q' where
  core : s'.coreRunning = s.coreRunning
  running : ∀ j, (s'.pcb j).status = .running ↔ (s.pcb j).status = .running

section Quiet

variable {E : List Node} {s s₁ s₂ : State} {q q₁ q₂ : Node → List Nat} {n : Nat} {h : Node}
  {i : Nat}

theorem Quiet.refl : Quiet E s q s q :=
  ⟨fun _ _ => rfl, fun _ => rfl, fun _ _ => rfl, rfl, rfl, rfl⟩

/-- The same PCBs are in use. -/
theorem Quiet.live (hw : Quiet E s q s₁ q₁) (j : Nat) : Live s₁ j ↔ Live s j := by
  have hst := hw.status j
  unfold Live
  constructor
  · intro hl
    refine ⟨fun heq => ?_, fun heq => ?_⟩
    · exact hl.1 ((hst (Or.inl heq)).trans heq)
    · exact hl.2 ((hst (Or.inr (Or.inl heq))).trans heq)
  · intro hl
    refine ⟨fun heq => ?_, fun heq => ?_⟩
    · exact hl.1 ((hst (Or.inr (Or.inr (Or.inl heq)))).symm.trans heq)
    · exact hl.2 ((hst (Or.inr (Or.inr (Or.inr heq)))).symm.trans heq)

theorem Quiet.trans (h₁ : Quiet E s q s₁ q₁) (h₂ : Quiet E s₁ q₁ s₂ q₂) : Quiet E s q s₂ q₂ := by
  refine ⟨?_, ?_, ?_, h₂.processId.trans h₁.processId, h₂.mlocks.trans h₁.mlocks,
    h₂.barriers.trans h₁.barriers⟩
  · intro b hb
    exact (h₂.queues b hb).trans (h₁.queues b hb)
  · intro j
    exact (h₂.pid j).trans (h₁.pid j)
  · intro j hj
    by_cases hl : Live s j
    · exfalso
      have hl₂ := (h₂.live j).mpr ((h₁.live j).mpr hl)
      rcases hj with hj | hj | hj | hj
      · exact hl.1 hj
      · exact hl.2 hj
      · exact hl₂.1 hj
      · exact hl₂.2 hj
    · have hend : (s.pcb j).status = .exited ∨ (s.pcb j).status = .available := by
        by_contra hcon
        exact hl ⟨fun heq => hcon (Or.inl heq), fun heq => hcon (Or.inr heq)⟩
      have hst₁ : (s₁.pcb j).status = (s.pcb j).status := by
        rcases hend with hend | hend
        · exact h₁.status j (Or.inl hend)
        · exact h₁.status j (Or.inr (Or.inl hend))
      rw [← hst₁] at hend
      rcases hend with hend | hend
      · exact (h₂.status j (Or.inl hend)).trans hst₁
      · exact (h₂.status j (Or.inr (Or.inl hend))).trans hst₁

theorem Quiet.mono {F : List Node} (hw : Quiet E s q s₁ q₁) (hEF : ∀ b ∈ E, b ∈ F) :
    Quiet F s q s₁ q₁ :=
  ⟨fun b hb => hw.queues b (fun hmem => hb (hEF b hmem)), hw.pid, hw.status, hw.processId,
    hw.mlocks, hw.barriers⟩

theorem Wakes.refl : Wakes E s q s q := ⟨Quiet.refl, rfl, fun _ => Iff.rfl⟩

theorem Wakes.trans (h₁ : Wakes E s q s₁ q₁) (h₂ : Wakes E s₁ q₁ s₂ q₂) : Wakes E s q s₂ q₂ :=
  ⟨h₁.toQuiet.trans h₂.toQuiet, h₂.core.trans h₁.core,
    fun j => (h₂.running j).trans (h₁.running j)⟩

/-- Changing the status of a live PCB to a live one is quiet. -/
theorem quiet_setStatus {st : Status} {l : Links Node} (hl : Live s i)
    (hst : st ≠ .exited ∧ st ≠ .available) (hq : ∀ b, b ∉ E → q₁ b = q b) :
    Quiet E s q { setStatus i st s with links := l } q₁ := by
  refine ⟨hq, fun j => setStatus_pid i j st, ?_, rfl, rfl, rfl⟩
  intro j hj
  by_cases hji : j = i
  · subst hji
    exfalso
    change _ ∨ _ ∨ ((setStatus j st s).pcb j).status = _ ∨
      ((setStatus j st s).pcb j).status = _ at hj
    rw [setStatus_pcb_self] at hj
    rcases hj with hj | hj | hj | hj
    · exact hl.1 hj
    · exact hl.2 hj
    · exact hst.1 hj
    · exact hst.2 hj
  · change ((setStatus i st s).pcb j).status = _
    rw [setStatus_pcb_of_ne hji]

/-- Waking a PCB touches its queue and the ready queue. -/
theorem Tidy.wake_wakes (ht : Tidy n s q) (hi : i ∈ q h) (hne : h ≠ .ready) (l : Links Node) :
    Wakes [.ready, h] s q { setStatus i .ready s with links := l } (woken i q) := by
  refine ⟨quiet_setStatus (ht.live_of_mem hi) ⟨by simp, by simp⟩ ?_, rfl, ?_⟩
  · intro b hb
    rw [List.mem_cons, List.mem_singleton, not_or] at hb
    rw [woken_of_ne hb.1, List.erase_of_not_mem]
    intro hmem
    exact hb.2 (ht.queues.unique hmem hi)
  · intro j
    by_cases hji : j = i
    · subst hji
      have hst := ht.status_of_mem hi
      rw [if_neg hne] at hst
      rw [hst]
      change ((setStatus j .ready s).pcb j).status = _ ↔ _
      rw [setStatus_pcb_self]
      simp
    · change ((setStatus i .ready s).pcb j).status = _ ↔ _
      rw [setStatus_pcb_of_ne hji]

/-- `do_unblock` wakes the first PCB of a queue. -/
theorem Tidy.doUnblock (ht : Tidy n s q) {rest : List Nat} (heq : q h = i :: rest)
    (hne : h ≠ .ready) :
    ∃ s', doUnblock h s = .ok s' ∧ Tidy n s' (woken i q) ∧
      Wakes [.ready, h] s q s' (woken i q) ∧ woken i q h = rest := by
  have hi : i ∈ q h := by
    rw [heq]
    exact List.mem_cons_self
  obtain ⟨l, hadd, ht'⟩ := ht.wake hi hne
  refine ⟨_, ?_, ht', ht.wake_wakes hi hne l, ?_⟩
  · unfold Sched.doUnblock
    rw [(ht.queues.getHead heq).1]
    exact hadd
  · rw [woken_of_ne hne, heq, List.erase_cons_head]

end Quiet

end Sched
