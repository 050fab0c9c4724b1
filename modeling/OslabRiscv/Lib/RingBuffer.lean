import Mathlib.Tactic

/-!
# Ring buffers

A ring of `cap` cells with two counters that only grow: `tail` counts what was
ever put in, `head` what was ever taken out.  The cell of the `j`-th element is
`j % cap`.  `Window` relates the ring to the whole history of what was put in; `Marked` says that
a mark in each cell tells which cells are in use.
-/

namespace RingBuffer

variable {α : Type}

/-- The ring holds the elements `head .. tail` of the history `l`. -/
structure Window (cap : Nat) (cell : Nat → α) (head tail : Nat) (l : List α) : Prop where
  le : head ≤ tail
  room : tail ≤ head + cap
  length : l.length = tail
  cells : ∀ j, head ≤ j → j < tail → l[j]? = some (cell (j % cap))

variable {cap : Nat} {cell : Nat → α} {head tail : Nat} {l : List α}

theorem Window.empty (cap : Nat) (cell : Nat → α) : Window cap cell 0 0 [] where
  le := le_refl _
  room := Nat.zero_le _
  length := rfl
  cells j _ hj := absurd hj (Nat.not_lt_zero j)

/-- Indices less than `cap` apart have different cells. -/
theorem cell_ne {i j : Nat} (hij : i < j) (hcap : j < i + cap) : i % cap ≠ j % cap := by
  intro heq
  have hdvd : cap ∣ j - i := (Nat.modEq_iff_dvd' hij.le).mp heq
  have hle := Nat.le_of_dvd (by omega) hdvd
  omega

/-- Putting an element in where there is room. -/
theorem Window.put (hw : Window cap cell head tail l) (hroom : tail < head + cap) (a : α) :
    Window cap (Function.update cell (tail % cap) a) head (tail + 1) (l ++ [a]) where
  le := by
    have := hw.le
    omega
  room := by omega
  length := by simp [hw.length]
  cells j hj hj' := by
    rcases Nat.lt_succ_iff_lt_or_eq.mp hj' with hlt | heq
    · have hne : j % cap ≠ tail % cap := cell_ne hlt (by omega)
      rw [Function.update_of_ne hne, List.getElem?_append_left (by rw [hw.length]; exact hlt)]
      exact hw.cells j hj hlt
    · subst heq
      rw [Function.update_self, ← hw.length, List.getElem?_concat_length]

/-- Taking the oldest element out. -/
theorem Window.take (hw : Window cap cell head tail l) (hne : head < tail) :
    Window cap cell (head + 1) tail l ∧ l[head]? = some (cell (head % cap)) := by
  refine ⟨⟨hne, ?_, hw.length, ?_⟩, hw.cells head (le_refl _) hne⟩
  · have := hw.room
    omega
  · intro j hj hj'
    exact hw.cells j (by omega) hj'

/-- The content of the ring, oldest element first. -/
def contents (cap : Nat) (cell : Nat → α) (head tail : Nat) : List α :=
  (List.range (tail - head)).map fun i => cell ((head + i) % cap)

/-- The ring holds the last elements that were put in. -/
theorem Window.contents_eq (hw : Window cap cell head tail l) :
    contents cap cell head tail = l.drop head := by
  have hle := hw.le
  apply List.ext_getElem?
  intro i
  rw [List.getElem?_drop]
  by_cases hi : i < tail - head
  · rw [hw.cells (head + i) (by omega) (by omega)]
    simp [contents, hi]
  · rw [List.getElem?_eq_none (by simp [contents]; omega),
      List.getElem?_eq_none (by rw [hw.length]; omega)]

/-! ## Cells with a mark -/

/-- The marked cells are those of the elements `head .. tail`. -/
def Marked (cap : Nat) (mark : Nat → Prop) (head tail : Nat) : Prop :=
  ∀ i < cap, mark i ↔ ∃ j, head ≤ j ∧ j < tail ∧ i = j % cap

section Marked

variable {mark mark' : Nat → Prop}

theorem Marked.empty (h : ∀ i < cap, ¬mark i) : Marked cap mark 0 0 := by
  intro i hi
  constructor
  · exact fun hm => absurd hm (h i hi)
  · rintro ⟨j, _, hj, _⟩
    exact absurd hj (Nat.not_lt_zero j)

/-- The cell of the oldest element is marked exactly if there is an element. -/
theorem Marked.head_iff (hm : Marked cap mark head tail) (hcap : 0 < cap) :
    mark (head % cap) ↔ head < tail := by
  rw [hm _ (Nat.mod_lt _ hcap)]
  constructor
  · rintro ⟨j, hlo, hhi, _⟩
    exact lt_of_le_of_lt hlo hhi
  · exact fun hlt => ⟨head, le_refl _, hlt, rfl⟩

theorem Marked.put (hm : Marked cap mark head tail) (hle : head ≤ tail)
    (h : ∀ i, mark' i ↔ i = tail % cap ∨ mark i) : Marked cap mark' head (tail + 1) := by
  intro i hi
  rw [h, hm i hi]
  constructor
  · rintro (rfl | ⟨j, hlo, hhi, hj⟩)
    · exact ⟨tail, hle, Nat.lt_succ_self _, rfl⟩
    · exact ⟨j, hlo, Nat.lt_succ_of_lt hhi, hj⟩
  · rintro ⟨j, hlo, hhi, hj⟩
    rcases Nat.lt_succ_iff_lt_or_eq.mp hhi with hlt | rfl
    · exact .inr ⟨j, hlo, hlt, hj⟩
    · exact .inl hj

theorem Marked.take (hm : Marked cap mark head tail) (hroom : tail ≤ head + cap)
    (h : ∀ i, mark' i ↔ i ≠ head % cap ∧ mark i) : Marked cap mark' (head + 1) tail := by
  intro i hi
  rw [h, hm i hi]
  constructor
  · rintro ⟨hne, j, hlo, hhi, hj⟩
    refine ⟨j, ?_, hhi, hj⟩
    rcases Nat.lt_or_eq_of_le hlo with hlt | rfl
    · exact hlt
    · exact absurd hj hne
  · rintro ⟨j, hlo, hhi, hj⟩
    refine ⟨fun heq => ?_, j, Nat.le_of_succ_le hlo, hhi, hj⟩
    exact cell_ne hlo (lt_of_lt_of_le hhi hroom) (heq.symm.trans hj)

end Marked

end RingBuffer
