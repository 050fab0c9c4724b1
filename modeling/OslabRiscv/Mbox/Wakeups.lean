import OslabRiscv.Mbox.Fifo

/-!
# Lost wake-ups

A completed call wakes one process of the other kind, and all of them only when
the box became full or empty; a woken process that still cannot go on waits
again without waking another.  So a process may be left waiting for what is
there.  `PassesOn` is the condition on a step under which it is not.
-/

namespace Mbox

open Outcome RingBuffer

variable {π : Type} {s s' t : State π} {p : π} {c : Request}

/-- Every process inside a call is blocked. -/
def AllBlocked (s : State π) : Prop :=
  ∀ p, ∀ d ∈ s.proc p, d.ready = false

/-- If everybody is blocked, nobody waits for room or data that is there. -/
def NoLostWakeup (s : State π) : Prop :=
  AllBlocked s →
    (∀ p ∈ s.box.emptyQueue, ∀ d ∈ s.proc p,
      ¬(d.request.length : Int) ≤ 64 - ((s.box.tail : Int) - s.box.head)) ∧
    (∀ p ∈ s.box.fullQueue, ∀ d ∈ s.proc p,
      ¬(d.request.length : Int) ≤ (s.box.tail : Int) - s.box.head)

/-- The call would not have to wait. -/
def Fits (b : Mailbox π) (c : Request) : Prop :=
  (c.length : Int) ≤ lengthFor b c

/-- Another process was woken and has not run yet. -/
def OtherAwake (s : State π) (p : π) : Prop :=
  ∃ q, q ≠ p ∧ ∃ d ∈ s.proc q, d.ready = true

/-- The acting process is not the last one awake; or its call returns, with somebody
of the other kind to wake or with none of its own kind that fits behind it; or it
waits, and no waiting call fits. -/
def PassesOn (s : State π) (a : Act π) : Prop :=
  OtherAwake s a.process ∨
    (Fits s.box (requestOf s a) ∧
      (s.box.queue (requestOf s a).counter ≠ [] ∨
        ∀ q ∈ s.box.queue (requestOf s a).queue, ∀ d ∈ s.proc q,
          lengthFor s.box (requestOf s a) - (requestOf s a).length < d.request.length)) ∨
    (¬Fits s.box (requestOf s a) ∧
      (∀ q ∈ s.box.emptyQueue, ∀ d ∈ s.proc q, ¬Fits s.box d.request) ∧
      ∀ q ∈ s.box.fullQueue, ∀ d ∈ s.proc q, ¬Fits s.box d.request)

instance [Fintype π] (s : State π) : Decidable (AllBlocked s) :=
  inferInstanceAs (Decidable (∀ p, ∀ d ∈ s.proc p, d.ready = false))

instance [Fintype π] (s : State π) : Decidable (NoLostWakeup s) :=
  inferInstanceAs (Decidable (AllBlocked s → _ ∧ _))

instance (b : Mailbox π) (c : Request) : Decidable (Fits b c) :=
  inferInstanceAs (Decidable ((c.length : Int) ≤ lengthFor b c))

instance [Fintype π] [DecidableEq π] (s : State π) (p : π) : Decidable (OtherAwake s p) :=
  inferInstanceAs (Decidable (∃ q, q ≠ p ∧ ∃ d ∈ s.proc q, d.ready = true))

instance [Fintype π] [DecidableEq π] (s : State π) (a : Act π) : Decidable (PassesOn s a) :=
  inferInstanceAs (Decidable (_ ∨ _ ∨ _))

/-- Whether a call fits depends on its kind and its length. -/
theorem lengthFor_of_queue (b : Mailbox π) {c c' : Request} (h : c'.queue = c.queue) :
    lengthFor b c' = lengthFor b c := by
  cases c <;> cases c' <;> first | rfl | cases h

/-- Every blocked process is in one of the two queues. -/
theorem Tidy.waiting (ht : Tidy s) {P : Inside → Prop} :
    ((∀ p ∈ s.box.emptyQueue, ∀ d ∈ s.proc p, P d) ∧
      ∀ p ∈ s.box.fullQueue, ∀ d ∈ s.proc p, P d) ↔
      ∀ p, ∀ d ∈ s.proc p, d.ready = false → P d := by
  constructor
  · intro h p d hd hr
    obtain ⟨hempty, hfull⟩ := h
    cases hq : d.request.queue with
    | lock => cases hc : d.request <;> rw [hc] at hq <;> cases hq
    | full => exact hfull p ((ht.members p .full).mpr ⟨d, hd, hq, hr⟩) d hd
    | empty => exact hempty p ((ht.members p .empty).mpr ⟨d, hd, hq, hr⟩) d hd
  · intro h
    constructor
    · intro p hp d hd
      obtain ⟨d', hd', _, hr⟩ := (ht.members p .empty).mp hp
      cases Option.some.inj (hd'.symm.trans hd)
      exact h p d hd hr
    · intro p hp d hd
      obtain ⟨d', hd', _, hr⟩ := (ht.members p .full).mp hp
      cases Option.some.inj (hd'.symm.trans hd)
      exact h p d hd hr

/-- The two kinds of waiting calls at once. -/
theorem Tidy.noLostWakeup_iff (ht : Tidy s) :
    NoLostWakeup s ↔ (AllBlocked s → ∀ p, ∀ d ∈ s.proc p, ¬Fits s.box d.request) := by
  have hkind : ((∀ p ∈ s.box.emptyQueue, ∀ d ∈ s.proc p,
        ¬(d.request.length : Int) ≤ 64 - ((s.box.tail : Int) - s.box.head)) ∧
      (∀ p ∈ s.box.fullQueue, ∀ d ∈ s.proc p,
        ¬(d.request.length : Int) ≤ (s.box.tail : Int) - s.box.head)) ↔
      ((∀ p ∈ s.box.emptyQueue, ∀ d ∈ s.proc p, ¬Fits s.box d.request) ∧
        ∀ p ∈ s.box.fullQueue, ∀ d ∈ s.proc p, ¬Fits s.box d.request) := by
    refine and_congr (forall₄_congr fun p hp d hd => ?_) (forall₄_congr fun p hp d hd => ?_)
    · obtain ⟨d', hd', hq, _⟩ := (ht.members p .empty).mp hp
      cases Option.some.inj (hd'.symm.trans hd)
      unfold Fits
      rw [lengthFor_of_queue (c := .send []) s.box hq]
      rfl
    · obtain ⟨d', hd', hq, _⟩ := (ht.members p .full).mp hp
      cases Option.some.inj (hd'.symm.trans hd)
      unfold Fits
      rw [lengthFor_of_queue (c := .recv 0) s.box hq]
      rfl
  unfold NoLostWakeup
  rw [hkind, ht.waiting]
  refine forall_congr' fun hall => forall₃_congr fun p d hd => ?_
  exact ⟨fun h => h (hall p d hd), fun h _ => h⟩

variable [DecidableEq π] {a : Act π}

/-- A process that waits: everybody is blocked unless another is awake. -/
theorem waits_iff {n : Nat} (ht : Tidy s) (ht' : Tidy s')
    (hfree : Free s a.process) (hlen : ¬Fits s.box (requestOf s a))
    (hproc : s'.proc = Function.update s.proc a.process (some ⟨requestOf s a, .wait, false, n⟩))
    (hhead : s'.box.head = s.box.head) (htail : s'.box.tail = s.box.tail) :
    NoLostWakeup s' ↔ PassesOn s a := by
  have hsame : ∀ c, Fits s'.box c ↔ Fits s.box c := by
    intro c
    unfold Fits
    cases c <;> simp only [lengthFor, hhead, htail]
  have hself : s'.proc a.process = some ⟨requestOf s a, .wait, false, n⟩ := by
    rw [hproc, Function.update_self]
  have hother : ∀ q, q ≠ a.process → s'.proc q = s.proc q := by
    intro q hq
    rw [hproc, Function.update_of_ne hq]
  rw [ht'.noLostWakeup_iff]
  unfold PassesOn
  rw [ht.waiting]
  by_cases hawake : OtherAwake s a.process
  · refine ⟨fun _ => .inl hawake, fun _ hall => ?_⟩
    obtain ⟨q, hq, d, hd, hr⟩ := hawake
    have := hall q d (by rw [hother q hq]; exact hd)
    rw [hr] at this
    cases this
  have hblocked : AllBlocked s' := by
    intro q d hd
    by_cases hq : q = a.process
    · rw [hq, hself] at hd
      cases hd
      rfl
    · rw [hother q hq] at hd
      cases hr : d.ready with
      | false => rfl
      | true => exact absurd ⟨q, hq, d, hd, hr⟩ hawake
  constructor
  · intro h
    refine .inr (.inr ⟨hlen, fun q d hd hr => ?_⟩)
    have hq : q ≠ a.process := by
      intro heq
      rw [heq] at hd
      rw [hfree d hd] at hr
      cases hr
    rw [← hsame]
    exact h hblocked q d (by rw [hother q hq]; exact hd)
  · intro h hall q d hd
    rcases h with h | h | ⟨_, h⟩
    · exact absurd h hawake
    · exact absurd h.1 hlen
    · rw [hsame]
      by_cases hq : q = a.process
      · rw [hq, hself] at hd
        cases hd
        exact hlen
      · exact h q d (by rw [← hother q hq]; exact hd) (hall q d hd)

/-- A call that returns. -/
theorem returns_iff (ht : Tidy s) (ht' : Tidy s') (hfree : Free s a.process)
    (hlen : Fits s.box (requestOf s a)) (hgone : s'.proc a.process = none)
    (hproc : ∀ q, q ≠ a.process → s'.proc q = s.proc q ∨
      (q ∈ s.box.queue (requestOf s a).counter ∧
        ∃ d, s.proc q = some d ∧ s'.proc q = some { d with ready := true }))
    (hwoken : s.box.queue (requestOf s a).counter ≠ [] →
      ∃ q d, s'.proc q = some d ∧ d.ready = true)
    (hroom : lengthFor s'.box (requestOf s a) =
      lengthFor s.box (requestOf s a) - (requestOf s a).length) :
    NoLostWakeup s' ↔ PassesOn s a := by
  rw [ht'.noLostWakeup_iff]
  by_cases hnil : s.box.queue (requestOf s a).counter = []
  · have hother : ∀ q, q ≠ a.process → s'.proc q = s.proc q := by
      intro q hq
      rcases hproc q hq with h | ⟨hmem, _⟩
      · exact h
      · rw [hnil] at hmem
        cases hmem
    by_cases hawake : OtherAwake s a.process
    · refine ⟨fun _ => .inl hawake, fun _ hall => ?_⟩
      obtain ⟨q, hq, d, hd, hr⟩ := hawake
      have := hall q d (by rw [hother q hq]; exact hd)
      rw [hr] at this
      cases this
    have hblocked : AllBlocked s' := by
      intro q d hd
      by_cases hq : q = a.process
      · rw [hq, hgone] at hd
        cases hd
      · rw [hother q hq] at hd
        cases hr : d.ready with
        | false => rfl
        | true => exact absurd ⟨q, hq, d, hd, hr⟩ hawake
    -- those who wait are of the kind of the call that returned
    have hkind : ∀ q d, s.proc q = some d → d.ready = false →
        d.request.queue = (requestOf s a).queue := by
      intro q d hd hr
      have hmem := (ht.members q d.request.queue).mpr ⟨d, hd, rfl, hr⟩
      cases hc : requestOf s a <;> rw [hc] at hnil <;> cases hdc : d.request <;>
        rw [hdc] at hmem <;> first | rfl | (exact absurd (hnil ▸ hmem) List.not_mem_nil)
    have hfits : ∀ d : Inside, d.request.queue = (requestOf s a).queue →
        (¬Fits s'.box d.request ↔
          lengthFor s.box (requestOf s a) - (requestOf s a).length < d.request.length) := by
      intro d hq
      unfold Fits
      rw [lengthFor_of_queue s'.box hq, hroom]
      omega
    constructor
    · intro h
      refine .inr (.inl ⟨hlen, .inr fun q hq d hd => ?_⟩)
      obtain ⟨d', hd', hk, hr⟩ := (ht.members q _).mp hq
      cases Option.some.inj (hd'.symm.trans hd)
      have hne : q ≠ a.process := by
        intro heq
        rw [heq] at hd
        rw [hfree d hd] at hr
        cases hr
      exact (hfits d hk).mp (h hblocked q d (by rw [hother q hne]; exact hd))
    · intro h hall q d hd
      rcases h with h | ⟨_, h⟩ | h
      · exact absurd h hawake
      · rcases h with h | h
        · exact absurd hnil h
        · have hr := hall q d hd
          have hne : q ≠ a.process := by
            intro heq
            rw [heq, hgone] at hd
            cases hd
          rw [hother q hne] at hd
          have hk := hkind q d hd hr
          exact (hfits d hk).mpr (h q ((ht.members q _).mpr ⟨d, hd, hk, hr⟩) d hd)
      · exact absurd hlen h.1
  · obtain ⟨q, d, hd, hr⟩ := hwoken hnil
    refine ⟨fun _ => .inr (.inl ⟨hlen, .inl hnil⟩), fun _ hall => ?_⟩
    have := hall q d hd
    rw [hr] at this
    cases this

omit [DecidableEq π] in
theorem Runnable.free (h : Runnable s a) : Free s a.process := by
  cases a with
  | send p msg => exact free_of_none h
  | recv p len => exact free_of_none h
  | resume p =>
      obtain ⟨d, hd, hr⟩ := h
      intro d' hd'
      cases Option.some.inj (hd.symm.trans hd')
      exact hr

/-- A step loses no wake-up exactly if it passes it on. -/
theorem step_passesOn (hs : Intact s) (hstep : step a s = .ok s') :
    Intact s' ∧ (NoLostWakeup s' ↔ PassesOn s a) := by
  have hrun := runnable_of_ok hstep
  obtain ⟨hs', hst⟩ := (step_spec hs hrun).of_ok hstep
  refine ⟨hs', ?_⟩
  cases hst with
  | waits n hlen hproc hhead htail =>
      exact waits_iff hs.tidy hs'.tidy hrun.free (by unfold Fits; omega) hproc hhead htail
  | returns hlen hgone hproc hwoken hroom =>
      exact returns_iff hs.tidy hs'.tidy hrun.free hlen hgone hproc hwoken hroom

/-- **Wake-ups are not lost exactly where every step passes them on.** -/
theorem no_lost_wakeup_iff {acts : List (Act π)} (hrun : run step acts initMbox = .ok t) :
    (∀ k s, run step (acts.take k) initMbox = .ok s → NoLostWakeup s) ↔
      AllSteps step PassesOn acts initMbox :=
  run_forall_iff (J := fun _ => Intact) (fun _ _ _ _ hs _ hstep => step_passesOn hs hstep) acts
    initMbox t initMbox_intact (fun _ => ⟨by simp [initMbox], by simp [initMbox]⟩) hrun

/-- Two receivers wait; each message wakes the first of them, which gets it. -/
theorem no_lost_wakeup_inTurn : ∃ t : State (Fin 3),
    run step [.recv 1 1, .recv 2 1, .send 0 [5], .resume 1, .send 0 [6], .resume 2] initMbox =
      .ok t ∧ NoLostWakeup t := by
  obtain ⟨t, hrun, _⟩ := exists_of_returns (ε := Stop) (P := fun _ : State (Fin 3) => True)
    (x := run step [.recv 1 1, .recv 2 1, .send 0 [5], .resume 1, .send 0 [6], .resume 2] initMbox)
    (by decide)
  exact ⟨t, hrun, (no_lost_wakeup_iff hrun).mpr (by decide) 6 t hrun⟩

/-- A receiver of 64 bytes waits before a receiver of one.  The one byte that is sent
wakes the first, which waits again; the byte is there, and nobody is awake. -/
theorem lost_wakeup_longReceiver : ∃ t : State (Fin 3),
    run step [.recv 1 64, .recv 2 1, .send 0 [5], .resume 1] initMbox = .ok t ∧
      ¬NoLostWakeup t :=
  exists_of_returns (by decide)

end Mbox
