import OslabRiscv.Lib.Outcome

/-!
# Computations that go alike

`Matching R x y` says that two fallible computations end in the same way: both return,
with values related by `R`, or both stop with the same error.
-/

namespace Outcome

variable {ε α β γ δ : Type}

/-- Both return related values, or both stop with the same error. -/
def Matching (R : α → β → Prop) : Except ε α → Except ε β → Prop
  | .ok a, .ok b => R a b
  | .error e, .error f => e = f
  | _, _ => False

variable {R : α → β → Prop} {S : γ → δ → Prop} {x : Except ε α} {y : Except ε β}

@[simp] theorem agree_ok {a : α} {b : β} :
    Matching R (.ok a : Except ε α) (.ok b) ↔ R a b := Iff.rfl

theorem Matching.error (R : α → β → Prop) (e : ε) : Matching R (.error e) (.error e) := rfl

theorem Matching.same (x : Except ε α) : Matching (· = ·) x x := by
  cases x with
  | ok a => exact rfl
  | error e => exact rfl

theorem Matching.mono {S : α → β → Prop} (hx : Matching R x y) (h : ∀ a b, R a b → S a b) :
    Matching S x y := by
  cases x with
  | ok a =>
      cases y with
      | ok b => exact h a b hx
      | error e => exact hx.elim
  | error e =>
      cases y with
      | ok b => exact hx.elim
      | error e' => exact hx

/-- Sequencing: the second parts go alike from related values. -/
theorem Matching.bind {f : α → Except ε γ} {g : β → Except ε δ} (hx : Matching R x y)
    (hf : ∀ a b, R a b → Matching S (f a) (g b)) : Matching S (x >>= f) (y >>= g) := by
  cases x with
  | ok a =>
      cases y with
      | ok b => exact hf a b hx
      | error e => exact hx.elim
  | error e =>
      cases y with
      | ok b => exact hx.elim
      | error e' =>
          have heq : e = e' := hx
          subst heq
          rfl

/-- If the one returns, so does the other. -/
theorem Matching.exists_ok (hx : Matching R x y) {a : α} (ha : x = .ok a) : ∃ b, y = .ok b ∧ R a b := by
  subst ha
  cases y with
  | ok b => exact ⟨b, rfl, hx⟩
  | error e => exact hx.elim

/-- If the other returns, so does the one. -/
theorem Matching.exists_ok' (hx : Matching R x y) {b : β} (hb : y = .ok b) :
    ∃ a, x = .ok a ∧ R a b := by
  subst hb
  cases x with
  | ok a => exact ⟨a, rfl, hx⟩
  | error e => exact hx.elim

/-- If the one stops, so does the other, with the same error. -/
theorem Matching.eq_error (hx : Matching R x y) {e : ε} (he : x = .error e) : y = .error e := by
  subst he
  cases y with
  | ok b => exact hx.elim
  | error e' => exact congrArg _ (Eq.symm hx)

theorem Matching.map {f : α → γ} {g : β → δ} (hx : Matching R x y)
    (h : ∀ a b, R a b → S (f a) (g b)) : Matching S (x.map f) (y.map g) := by
  cases x with
  | ok a =>
      cases y with
      | ok b => exact h a b hx
      | error e => exact hx.elim
  | error e =>
      cases y with
      | ok b => exact hx.elim
      | error e' => exact hx

/-- What is known of the value the one returns. -/
theorem Matching.and_left {P : α → Prop} (hx : Matching R x y) (h : ∀ a, x = .ok a → P a) :
    Matching (fun a b => R a b ∧ P a) x y := by
  cases x with
  | ok a =>
      cases y with
      | ok b => exact ⟨hx, h a rfl⟩
      | error e => exact hx.elim
  | error e =>
      cases y with
      | ok b => exact hx.elim
      | error e' => exact hx

/-! ## Runs that answer -/

section Trace

variable {η σ τ : Type}

/-- Perform a list of operations in turn and keep what each of them answers. -/
def trace (step : η → σ → Except ε (α × σ)) : List η → σ → Except ε (List α × σ)
  | [], s => .ok ([], s)
  | e :: es, s => do
    let (a, s) ← step e s
    let (as, s) ← trace step es s
    .ok (a :: as, s)

/-- The state an operation ends in. -/
def after (step : η → σ → Except ε (α × σ)) (e : η) (s : σ) : Except ε σ := (step e s).map Prod.snd

/-- The same answers, and related states. -/
def SameAnswers (R : σ → τ → Prop) (r : α × σ) (r' : α × τ) : Prop := r'.1 = r.1 ∧ R r.2 r'.2

variable {R : σ → τ → Prop} {C : σ → η → Prop} {step : η → σ → Except ε (α × σ)}
  {step' : η → τ → Except ε (α × τ)}

/-- Two systems of which every step goes alike answer alike in every run. -/
theorem Matching.trace
    (hstep : ∀ e s t, R s t → C s e → Matching (SameAnswers R) (step e s) (step' e t)) :
    ∀ es s t, R s t → AllSteps (after step) C es s →
      Matching (SameAnswers R) (trace step es s) (trace step' es t) := by
  intro es
  induction es with
  | nil => exact fun s t h _ => ⟨rfl, h⟩
  | cons e es ih =>
      intro s t h hC
      have hone := (hstep e s t h hC.head).and_left (P := fun r => step e s = .ok r) fun _ hr => hr
      refine hone.bind ?_
      rintro ⟨a, s₁⟩ ⟨a', t₁⟩ ⟨⟨hans, h₁⟩, hs₁⟩
      cases hans
      have hafter : after step e s = .ok s₁ := by
        unfold after
        rw [hs₁]
        rfl
      refine (ih s₁ t₁ h₁ (hC.tail hafter)).bind ?_
      rintro ⟨as, s₂⟩ ⟨as', t₂⟩ ⟨hanss, h₂⟩
      cases hanss
      exact ⟨rfl, h₂⟩

end Trace

end Outcome
