import OslabRiscv.Kernel.Harts

/-!
# The kernel lock

`lock_kernel` swaps `LOCKED` into `large_kernel_lock` until it gets `UNLOCKED` out of it, and
`unlock_kernel` writes `UNLOCKED`.  A hart that is switched to another process keeps the lock.
-/

namespace Kernel

open Assembly ByteStore Outcome

variable {η : Type} [DecidableEq η]

/-- Only one hart is in the kernel, and the lock is taken exactly if one is. -/
structure Exclusive (s : Machine η) : Prop where
  alone : ∀ h h', (s.hart h).stage = .kernel → (s.hart h').stage = .kernel → h = h'
  held : s.lock = .locked ↔ ∃ h, (s.hart h).stage = .kernel

theorem execute_stage {is : List Instr} {v v' : Hart} {m m' : Store}
    (h : execute is v m = .ok (v', m')) : v'.stage = v.stage := by
  unfold execute at h
  cases hrun : Assembly.run is (v.cpu m) with
  | some c =>
    rw [hrun] at h
    cases h
    rfl
  | none =>
    rw [hrun] at h
    cases h

omit [DecidableEq η] in
/-- What a step does to the lock: one takes it, one gives it back, and the others stay on their
side of it. -/
theorem act_stage {v v' : Hart} {m m' : Store} {l l' : LockStatus} {e : Event η}
    (hstage : v.stage = e.stage) (h : act v m l e = .ok (v', m', l')) :
    (v.stage ≠ .kernel ∧ l' = .locked ∧ (v'.stage = .kernel ↔ l = .unlocked)) ∨
      (v.stage = .kernel ∧ l' = .unlocked ∧ v'.stage ≠ .kernel) ∨
      (l' = l ∧ (v'.stage = .kernel ↔ v.stage = .kernel)) := by
  have hexec : ∀ {is : List Instr} {w : Hart} {f : Hart → Hart},
      (execute is w m >>= fun p => Except.ok (f p.1, p.2, l)) = .ok (v', m', l') →
        l' = l ∧ ∃ u, u.stage = w.stage ∧ v' = f u := by
    intro is w f hbind
    cases hex : execute is w m with
    | ok p =>
      rw [hex] at hbind
      cases hbind
      exact ⟨rfl, p.1, execute_stage hex, rfl⟩
    | error err =>
      rw [hex] at hbind
      cases hbind
  cases e with
  | swap h' reg =>
    cases h
    have hentered : v.stage = .entered := hstage
    refine .inl ⟨fun hk => (nomatch hentered.symm.trans hk), rfl, ?_⟩
    change (if l = .unlocked then Stage.kernel else .entered) = .kernel ↔ l = .unlocked
    cases l <;> decide
  | leave h' =>
    cases h
    exact .inr (.inl ⟨hstage, rfl, fun hk => nomatch hk⟩)
  | trap h' cause tval =>
    have hprog : v.stage = .program := hstage
    obtain ⟨hl, u, _, hu⟩ := hexec (f := fun u => { u with stage := .entered }) h
    refine .inr (.inr ⟨hl, ?_⟩)
    rw [hu, hprog]
    exact ⟨fun hk => (nomatch hk), fun hk => (nomatch hk)⟩
  | resume h' =>
    have hleaving : v.stage = .leaving := hstage
    obtain ⟨hl, u, _, hu⟩ := hexec (f := fun u => { u.sret with stage := .program }) h
    refine .inr (.inr ⟨hl, ?_⟩)
    rw [hu, hleaving]
    exact ⟨fun hk => (nomatch hk), fun hk => (nomatch hk)⟩
  | switch h' next =>
    obtain ⟨hl, u, hu, hv⟩ := hexec (w := v.calling next) (f := fun u => { u with pc := u.reg .ra }) h
    refine .inr (.inr ⟨hl, ?_⟩)
    rw [hv]
    change u.stage = _ ↔ _
    rw [hu]
    rfl
  | _ =>
    cases h
    exact .inr (.inr ⟨rfl, Iff.rfl⟩)

theorem step_exclusive {s t : Machine η} {e : Event η} (hs : Exclusive s) (h : step e s = .ok t) :
    Exclusive t := by
  unfold step at h
  by_cases hstage : (s.hart e.hart).stage = e.stage
  · rw [if_neg (not_not_intro hstage)] at h
    cases hact : act (s.hart e.hart) s.mem s.lock e with
    | error err =>
      rw [hact] at h
      cases h
    | ok r =>
      obtain ⟨v, m, l⟩ := r
      rw [hact] at h
      cases h
      have hself : Function.update s.hart e.hart v e.hart = v := Function.update_self ..
      have hother : ∀ h', h' ≠ e.hart → Function.update s.hart e.hart v h' = s.hart h' :=
        fun h' hne => Function.update_of_ne hne ..
      rcases act_stage hstage hact with ⟨hout, hl, htook⟩ | ⟨hin, hl, hout⟩ | ⟨hl, hsame⟩
      · -- nobody was in the kernel if the lock was free
        have hfree : s.lock = .unlocked → ∀ h', (s.hart h').stage ≠ .kernel := by
          intro hun h' hk
          have hlocked := hs.held.mpr ⟨h', hk⟩
          rw [hun] at hlocked
          cases hlocked
        refine ⟨fun h₁ h₂ hk₁ hk₂ => ?_, ?_⟩
        · change (Function.update s.hart e.hart v h₁).stage = _ at hk₁
          change (Function.update s.hart e.hart v h₂).stage = _ at hk₂
          by_cases hh₁ : h₁ = e.hart
          · by_cases hh₂ : h₂ = e.hart
            · rw [hh₁, hh₂]
            · rw [hh₁, hself] at hk₁
              rw [hother h₂ hh₂] at hk₂
              exact absurd hk₂ (hfree (htook.mp hk₁) h₂)
          · by_cases hh₂ : h₂ = e.hart
            · rw [hh₂, hself] at hk₂
              rw [hother h₁ hh₁] at hk₁
              exact absurd hk₁ (hfree (htook.mp hk₂) h₁)
            · rw [hother h₁ hh₁] at hk₁
              rw [hother h₂ hh₂] at hk₂
              exact hs.alone h₁ h₂ hk₁ hk₂
        · refine ⟨fun _ => ?_, fun _ => hl⟩
          by_cases hun : s.lock = .unlocked
          · exact ⟨e.hart, (congrArg Hart.stage hself).trans (htook.mpr hun)⟩
          · have hlocked : s.lock = .locked := by
              cases hc : s.lock with
              | locked => rfl
              | unlocked => exact absurd hc hun
            obtain ⟨h', hk⟩ := hs.held.mp hlocked
            have hne : h' ≠ e.hart := by
              rintro rfl
              exact hout hk
            exact ⟨h', (congrArg Hart.stage (hother h' hne)).trans hk⟩
      · have hnone : ∀ h', (Function.update s.hart e.hart v h').stage ≠ .kernel := by
          intro h' hk
          by_cases hh : h' = e.hart
          · rw [hh, hself] at hk
            exact hout hk
          · rw [hother h' hh] at hk
            exact hh (hs.alone h' e.hart hk hin)
        refine ⟨fun h₁ _ hk₁ _ => absurd hk₁ (hnone h₁), fun hlk => ?_, fun ⟨h', hk⟩ => ?_⟩
        · exact absurd (hl.symm.trans hlk) (by decide)
        · exact absurd hk (hnone h')
      · have hiff : ∀ h', (Function.update s.hart e.hart v h').stage = .kernel ↔
            (s.hart h').stage = .kernel := by
          intro h'
          by_cases hh : h' = e.hart
          · rw [hh, hself]
            exact hsame
          · rw [hother h' hh]
        refine ⟨fun h₁ h₂ hk₁ hk₂ => hs.alone h₁ h₂ ((hiff h₁).mp hk₁) ((hiff h₂).mp hk₂), ?_⟩
        change l = .locked ↔ ∃ h', (Function.update s.hart e.hart v h').stage = .kernel
        rw [hl, hs.held]
        exact exists_congr fun h' => (hiff h').symm
  · rw [if_pos hstage] at h
    cases h

/-- **One hart at a time.**  In every state that any number of harts reach, at most one of them is
in the kernel, and the lock is taken exactly if one is: it is never lost, and never left taken. -/
theorem kernel_exclusive {s t : Machine η} {es : List (Event η)}
    (hprog : ∀ h, (s.hart h).stage = .program)
    (hlock : s.lock = .unlocked) (hrun : Outcome.run step es s = .ok t) :
    (∀ h h', (t.hart h).stage = .kernel → (t.hart h').stage = .kernel → h = h') ∧
      (t.lock = .locked ↔ ∃ h, (t.hart h).stage = .kernel) := by
  have hs : Exclusive s := by
    refine ⟨fun h _ hk => ?_, ?_⟩
    · rw [hprog h] at hk
      cases hk
    · rw [hlock]
      refine ⟨fun hl => (nomatch hl), fun ⟨h, hk⟩ => ?_⟩
      rw [hprog h] at hk
      cases hk
  have ht := run_invariant (C := fun _ _ => True) (fun s e t hs _ hstep => step_exclusive hs hstep)
    es s t hs (allSteps_true es s) hrun
  exact ⟨ht.alone, ht.held⟩

/-- Two harts trap and ask for the lock. -/
def contest : List (Event Bool) :=
  [.trap false 7 0, .trap true 7 0, .swap true fun _ => 0, .swap false fun _ => 0]

def idlePair : Machine Bool :=
  ⟨fun _ => 0, .unlocked, fun _ => ⟨fun _ => 0, fun _ => 0, 0, .user, .program⟩⟩

theorem kernel_exclusive_contest : ∃ t, Outcome.run step contest idlePair = .ok t ∧
    (∀ h h', (t.hart h).stage = .kernel → (t.hart h').stage = .kernel → h = h') ∧
      (t.lock = .locked ↔ ∃ h, (t.hart h).stage = .kernel) := by
  obtain ⟨t, ht, _⟩ := exists_of_returns (x := Outcome.run step contest idlePair)
    (P := fun t => (t.hart true).stage = .kernel) (by decide +kernel)
  exact ⟨t, ht, kernel_exclusive (fun _ => rfl) rfl ht⟩

end Kernel
