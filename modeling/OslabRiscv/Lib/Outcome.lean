import Mathlib.Tactic

/-!
# Postconditions of fallible computations

`Holds E P x` says that the computation `x` either returns a value satisfying
`P` or stops with an error that `E` admits.  Sequencing, weakening and loops
over a list of operations each have one rule.
-/

namespace Outcome

variable {ε α β : Type}

/-- `x` returns a value satisfying `P`, or fails with an error `E` admits. -/
def Holds (E : ε → Prop) (P : α → Prop) : Except ε α → Prop
  | .ok a => P a
  | .error e => E e

variable {E : ε → Prop} {P Q : α → Prop}

@[simp] theorem holds_ok {a : α} : Holds E P (.ok a) ↔ P a := Iff.rfl

@[simp] theorem holds_error {e : ε} : Holds E P (.error e : Except ε α) ↔ E e := Iff.rfl

/-- Sequencing: the second computation starts from what the first promises. -/
theorem Holds.bind {x : Except ε α} {f : α → Except ε β} {R : β → Prop}
    (hx : Holds E P x) (hf : ∀ a, P a → Holds E R (f a)) : Holds E R (x >>= f) := by
  cases x with
  | ok a => exact hf a hx
  | error e => exact hx

/-- Sequencing, where the second part may use what the first returned. -/
theorem Holds.bind_eq {x : Except ε α} {f : α → Except ε β} {R : β → Prop}
    (hx : Holds E P x) (hf : ∀ a, x = .ok a → P a → Holds E R (f a)) :
    Holds E R (x >>= f) := by
  cases x with
  | ok a => exact hf a rfl hx
  | error e => exact hx

/-- Two continuations that agree on what the first computation promises. -/
theorem Holds.bind_congr {x : Except ε α} {f g : α → Except ε β} (hx : Holds E P x)
    (h : ∀ a, P a → f a = g a) : x >>= f = x >>= g := by
  cases x with
  | ok a => exact h a hx
  | error e => rfl

/-- What was computed before the last part. -/
theorem exists_of_bind_ok {x : Except ε α} {f : α → Except ε β} {b : β}
    (h : x >>= f = .ok b) : ∃ a, x = .ok a ∧ f a = .ok b := by
  cases x with
  | ok a => exact ⟨a, rfl, h⟩
  | error e => cases h

theorem Holds.mono {x : Except ε α} (hx : Holds E P x) (h : ∀ a, P a → Q a) : Holds E Q x := by
  cases x with
  | ok a => exact h a hx
  | error e => exact hx

theorem Holds.both {x : Except ε α} (hx : Holds E P x) (hx' : Holds E Q x) :
    Holds E (fun a => P a ∧ Q a) x := by
  cases x with
  | ok a => exact ⟨hx, hx'⟩
  | error e => exact hx

/-- More errors may be admitted. -/
theorem Holds.attempt {E' : ε → Prop} {x : Except ε α} (hx : Holds E P x) (h : ∀ e, E e → E' e) :
    Holds E' P x := by
  cases x with
  | ok a => exact hx
  | error e => exact h e hx

/-- Renaming the errors. -/
theorem Holds.mapError {ε' : Type} {E' : ε' → Prop} {f : ε → ε'} {x : Except ε α}
    (hx : Holds E P x) (h : ∀ e, E e → E' (f e)) : Holds E' P (x.mapError f) := by
  cases x with
  | ok a => exact hx
  | error e => exact h e hx

/-- A computation that does not stop with an admitted error returns. -/
theorem Holds.exists_ok {x : Except ε α} (hx : Holds E P x) (hE : ∀ e, E e → x ≠ .error e) :
    ∃ a, x = .ok a ∧ P a := by
  cases x with
  | ok a => exact ⟨a, rfl, hx⟩
  | error e => exact absurd rfl (hE e hx)

/-- Nothing is asked of the value where every error is admitted. -/
theorem Holds.any (hE : ∀ e, E e) (x : Except ε α) : Holds E (fun _ => True) x := by
  cases x with
  | ok a => trivial
  | error e => exact hE e

/-- What holds of every returned value holds of this one. -/
theorem Holds.of_ok {x : Except ε α} (hx : Holds E P x) {a : α} (ha : x = .ok a) : P a := by
  subst ha
  exact hx

/-- Evaluate whether `x` returns a value satisfying `P`. -/
def returns (P : α → Prop) [DecidablePred P] : Except ε α → Bool
  | .ok a => decide (P a)
  | .error _ => false

theorem exists_of_returns [DecidablePred P] {x : Except ε α} (h : returns P x = true) :
    ∃ a, x = .ok a ∧ P a := by
  cases x with
  | ok a => exact ⟨a, rfl, of_decide_eq_true h⟩
  | error e => cases h

/-! ## Runs -/

section Run

variable {γ σ : Type} (step : γ → σ → Except ε σ)

/-- Perform a list of operations in turn; an error ends the run. -/
def run : List γ → σ → Except ε σ
  | [], s => .ok s
  | c :: cs, s => step c s >>= run cs

/-- Every operation of the run meets `C` in the state it is performed in. -/
def AllSteps (C : σ → γ → Prop) : List γ → σ → Prop
  | [], _ => True
  | c :: cs, s => C s c ∧
    match step c s with
    | .ok s' => AllSteps C cs s'
    | .error _ => True

instance AllSteps.decidable (C : σ → γ → Prop) [∀ s c, Decidable (C s c)] :
    ∀ cs s, Decidable (AllSteps step C cs s)
  | [], _ => inferInstanceAs (Decidable True)
  | c :: cs, s =>
    match h : step c s with
    | .ok s' =>
      have := AllSteps.decidable C cs s'
      decidable_of_iff (C s c ∧ AllSteps step C cs s') (by simp only [AllSteps, h])
    | .error _ => decidable_of_iff (C s c ∧ True) (by simp only [AllSteps, h])

variable {step}

theorem AllSteps.head {C : σ → γ → Prop} {c : γ} {cs : List γ} {s : σ}
    (h : AllSteps step C (c :: cs) s) : C s c := h.1

theorem AllSteps.tail {C : σ → γ → Prop} {c : γ} {cs : List γ} {s s' : σ}
    (h : AllSteps step C (c :: cs) s) (hs : step c s = .ok s') : AllSteps step C cs s' := by
  have h2 := h.2
  rw [hs] at h2
  exact h2

/-- Less may be asked of the operations. -/
theorem AllSteps.mono {C D : σ → γ → Prop} (hCD : ∀ s c, C s c → D s c) :
    ∀ (cs : List γ) (s : σ), AllSteps step C cs s → AllSteps step D cs s := by
  intro cs
  induction cs with
  | nil => exact fun _ _ => trivial
  | cons c cs ih =>
      intro s h
      refine ⟨hCD s c h.1, ?_⟩
      cases hs : step c s with
      | ok s' => exact ih s' (h.tail hs)
      | error e => trivial

/-- Where nothing is asked of the operations, all of them meet it. -/
theorem allSteps_true (cs : List γ) : ∀ s, AllSteps step (fun _ _ => True) cs s := by
  induction cs with
  | nil =>
      intro s
      trivial
  | cons c cs ih =>
      intro s
      refine ⟨trivial, ?_⟩
      cases step c s with
      | ok s' => exact ih s'
      | error e => trivial

/-- What all operations meet, they meet in every state. -/
theorem AllSteps.of_forall {P : γ → Prop} {cs : List γ} (h : ∀ c ∈ cs, P c) (s : σ) :
    AllSteps step (fun _ c => P c) cs s := by
  induction cs generalizing s with
  | nil => trivial
  | cons c cs ih =>
      refine ⟨h c List.mem_cons_self, ?_⟩
      cases hs : step c s with
      | ok s' => exact ih (fun c hc => h c (List.mem_cons_of_mem _ hc)) s'
      | error _ => trivial

/-- Conditions that agree under an invariant are met by the same runs. -/
theorem allSteps_iff {I : σ → Prop} {C D : σ → γ → Prop}
    (hstep : ∀ s c, I s → (C s c ↔ D s c) ∧ ∀ s', step c s = .ok s' → I s') :
    ∀ (cs : List γ) (s : σ), I s → (AllSteps step C cs s ↔ AllSteps step D cs s) := by
  intro cs
  induction cs with
  | nil => exact fun _ _ => Iff.rfl
  | cons c cs ih =>
      intro s hI
      obtain ⟨hiff, hkeep⟩ := hstep s c hI
      refine and_congr hiff ?_
      cases hs : step c s with
      | ok s' => exact ih s' (hkeep s' hs)
      | error e => exact Iff.rfl

theorem run_cons {c : γ} {cs : List γ} {s t : σ} (h : run step (c :: cs) s = .ok t) :
    ∃ s', step c s = .ok s' ∧ run step cs s' = .ok t := by
  unfold run at h
  cases hs : step c s with
  | ok s' =>
      rw [hs] at h
      exact ⟨s', rfl, h⟩
  | error e =>
      rw [hs] at h
      cases h

theorem run_append (cs cs' : List γ) (s : σ) :
    run step (cs ++ cs') s = run step cs s >>= run step cs' := by
  induction cs generalizing s with
  | nil => rfl
  | cons c cs ih =>
      change step c s >>= run step (cs ++ cs') = (step c s >>= run step cs) >>= run step cs'
      cases step c s with
      | ok t => exact ih t
      | error e => rfl

theorem run_append_ok {cs cs' : List γ} {s t : σ} (h : run step cs s = .ok t) :
    run step (cs ++ cs') s = run step cs' t := by
  rw [run_append, h]
  rfl

/-- Runs one after the other. -/
theorem AllSteps.append {C : σ → γ → Prop} {cs cs' : List γ} {s t : σ}
    (h : AllSteps step C cs s) (hrun : run step cs s = .ok t) (h' : AllSteps step C cs' t) :
    AllSteps step C (cs ++ cs') s := by
  induction cs generalizing s with
  | nil =>
      cases hrun
      exact h'
  | cons c cs ih =>
      obtain ⟨s', hs, hrest⟩ := run_cons hrun
      refine ⟨h.head, ?_⟩
      rw [hs]
      exact ih (h.tail hs) hrest

/-- **Invariants.**  What every operation meeting `C` preserves holds after every
run all of whose operations meet `C`. -/
theorem run_invariant {I : σ → Prop} {C : σ → γ → Prop}
    (hstep : ∀ s c s', I s → C s c → step c s = .ok s' → I s') :
    ∀ (cs : List γ) (s t : σ), I s → AllSteps step C cs s → run step cs s = .ok t → I t := by
  intro cs
  induction cs with
  | nil =>
      intro s t hI _ hrun
      cases hrun
      exact hI
  | cons c cs ih =>
      intro s t hI hC hrun
      obtain ⟨s', hs, hrest⟩ := run_cons hrun
      exact ih s' t (hstep s c s' hI hC.head hs) (hC.tail hs) hrest

/-- Where each operation returns under an invariant of the state and the operations to come, the
whole run does. -/
theorem run_returns {J : List γ → σ → Prop}
    (hstep : ∀ s c cs, J (c :: cs) s → ∃ s', step c s = .ok s' ∧ J cs s') :
    ∀ (cs : List γ) (s : σ), J cs s → ∃ t, run step cs s = .ok t := by
  intro cs
  induction cs with
  | nil => exact fun s _ => ⟨s, rfl⟩
  | cons c cs ih =>
      intro s hJ
      obtain ⟨s', hs, hJ'⟩ := hstep s c cs hJ
      obtain ⟨t, ht⟩ := ih s' hJ'
      refine ⟨t, ?_⟩
      unfold run
      rw [hs]
      exact ht

/-- **Progress.**  Where every step reaches the goal or keeps an invariant whose rank does not grow,
and the steps that count bring it down, a run in which more steps count than the rank says reaches
the goal. -/
theorem run_reaches {I : Nat → σ → Prop} {G : σ → Prop} {C : σ → γ → Prop} {counts : γ → Bool}
    (hstep : ∀ m s c s', I m s → C s c → step c s = .ok s' →
      G s' ∨ ∃ m', I m' s' ∧ m' ≤ m ∧ (counts c = true → m' < m)) :
    ∀ (cs : List γ) (m : Nat) (s t : σ), I m s → AllSteps step C cs s → run step cs s = .ok t →
      m < cs.countP counts → ∃ k s', run step (cs.take k) s = .ok s' ∧ G s' := by
  intro cs
  induction cs with
  | nil =>
      intro m s t _ _ _ hcount
      exact absurd hcount (Nat.not_lt_zero m)
  | cons c cs ih =>
      intro m s t hI hC hrun hcount
      obtain ⟨s₁, hs₁, hrest⟩ := run_cons hrun
      have hnext : ∀ k, run step ((c :: cs).take (k + 1)) s = run step (cs.take k) s₁ := by
        intro k
        simp only [List.take_succ_cons, run, hs₁]
        rfl
      rcases hstep m s c s₁ hI hC.head hs₁ with hG | ⟨m', hI', hle, hlt⟩
      · exact ⟨1, s₁, by rw [hnext 0]; rfl, hG⟩
      · have hcount' : m' < cs.countP counts := by
          rw [List.countP_cons] at hcount
          by_cases hc : counts c = true
          · have := hlt hc
            rw [if_pos hc] at hcount
            omega
          · rw [if_neg hc] at hcount
            omega
        obtain ⟨k, s', hk, hG⟩ := ih m' s₁ t hI' (hC.tail hs₁) hrest hcount'
        exact ⟨k + 1, s', by rw [hnext]; exact hk, hG⟩

/-- Where, under an invariant `J` of the state and the steps to come, a step from a state with `I`
leads to one with `I` exactly if it meets `C`, every state of a run has `I` exactly if every step
of it meets `C`. -/
theorem run_forall_iff {I : σ → Prop} {J : List γ → σ → Prop} {C : σ → γ → Prop}
    (hstep : ∀ s c cs s', J (c :: cs) s → I s → step c s = .ok s' → J cs s' ∧ (I s' ↔ C s c)) :
    ∀ (cs : List γ) (s t : σ), J cs s → I s → run step cs s = .ok t →
      ((∀ k s', run step (cs.take k) s = .ok s' → I s') ↔ AllSteps step C cs s) := by
  intro cs
  induction cs with
  | nil =>
      intro s t _ hI _
      refine ⟨fun _ => trivial, fun _ k s' hk => ?_⟩
      rw [List.take_nil] at hk
      cases hk
      exact hI
  | cons c cs ih =>
      intro s t hJ hI hrun
      obtain ⟨s₁, hs₁, hrest⟩ := run_cons hrun
      obtain ⟨hJ₁, hiff⟩ := hstep s c cs s₁ hJ hI hs₁
      have hnext : ∀ k, run step ((c :: cs).take (k + 1)) s = run step (cs.take k) s₁ := by
        intro k
        simp only [List.take_succ_cons, run, hs₁]
        rfl
      constructor
      · intro hall
        have hI₁ : I s₁ := hall 1 s₁ (by rw [hnext 0]; rfl)
        refine ⟨hiff.mp hI₁, ?_⟩
        rw [hs₁]
        refine (ih s₁ t hJ₁ hI₁ hrest).mp fun k s' hk => ?_
        exact hall (k + 1) s' (by rw [hnext]; exact hk)
      · intro hall k s' hk
        have hI₁ : I s₁ := hiff.mpr hall.head
        cases k with
        | zero =>
            cases hk
            exact hI
        | succ k =>
            rw [hnext] at hk
            exact (ih s₁ t hJ₁ hI₁ hrest).mpr (hall.tail hs₁) k s' hk

end Run

end Outcome
