import Mathlib.Tactic

/-!
# Places in a line

`InLine x ahead l` says who stands in front of `x` in the line `l`.  Others who come stand behind
`x`, and others who leave bring it closer to the front.
-/

namespace WaitingLine

variable {α : Type}

/-- In the line `l` those before `x` are `ahead`. -/
def InLine (x : α) (ahead l : List α) : Prop := x ∉ ahead ∧ ∃ behind, l = ahead ++ x :: behind

variable {x y : α} {ahead l l' : List α}

theorem InLine.mem (h : InLine x ahead l) : x ∈ l := by
  obtain ⟨_, behind, rfl⟩ := h
  exact List.mem_append_right _ List.mem_cons_self

theorem exists_inLine (h : x ∈ l) : ∃ ahead, InLine x ahead l := by
  obtain ⟨ahead, behind, heq, hnot⟩ := List.eq_append_cons_of_mem h
  exact ⟨ahead, hnot, behind, heq⟩

/-- Others come. -/
theorem InLine.prefix (h : InLine x ahead l) (hpre : l <+: l') : InLine x ahead l' := by
  obtain ⟨hnot, behind, rfl⟩ := h
  obtain ⟨more, rfl⟩ := hpre
  exact ⟨hnot, behind ++ more, by rw [List.append_assoc, List.cons_append]⟩

/-- Who is taken is `x`, or one ahead of it, if `x` may be taken. -/
theorem InLine.find (h : InLine x ahead l) {p : α → Bool} (hx : p x) :
    ∃ y, l.find? p = some y ∧ (y = x ∨ y ∈ ahead) := by
  obtain ⟨_, behind, rfl⟩ := h
  rw [List.find?_append]
  cases hfind : ahead.find? p with
  | none =>
      refine ⟨x, ?_, .inl rfl⟩
      rw [Option.none_or, List.find?_cons_of_pos hx]
  | some y => exact ⟨y, rfl, .inr (List.mem_of_find?_eq_some hfind)⟩

section Eq

variable [DecidableEq α]

/-- Those ahead are as many as the place says. -/
theorem InLine.idxOf (h : InLine x ahead l) : l.idxOf x = ahead.length := by
  obtain ⟨hnot, behind, rfl⟩ := h
  rw [List.idxOf_append_of_notMem hnot, List.idxOf_cons_self, Nat.add_zero]

/-- Another one leaves. -/
theorem InLine.erase (h : InLine x ahead l) (hne : y ≠ x) :
    InLine x (ahead.erase y) (l.erase y) := by
  obtain ⟨hnot, behind, rfl⟩ := h
  refine ⟨fun hmem => hnot (List.mem_of_mem_erase hmem), ?_⟩
  by_cases hy : y ∈ ahead
  · exact ⟨behind, List.erase_append_left _ hy⟩
  · refine ⟨behind.erase y, ?_⟩
    rw [List.erase_append_right _ hy, List.erase_of_not_mem hy,
      List.erase_cons_tail (by simpa using hne.symm)]

end Eq

end WaitingLine
