import Mathlib.Data.Nat.Digits.Lemmas
import Mathlib.Tactic

/-!
# Numerals

The digits of a number in a base: at least one, and as many as asked for, with zeros in front.
They determine the number (`value_numeral`), and a number below a power of the base needs no more
digits than the exponent says (`length_lowFirst_le`).
-/

namespace Numerals

/-- The digits, lowest first; zero has one. -/
def lowFirst (b n : Nat) : List Nat := if n = 0 then [0] else Nat.digits b n

/-- The digits, highest first, behind as many zeros as it takes to make them `width` long. -/
def numeral (b width n : Nat) : List Nat := ((lowFirst b n).rightpad width 0).reverse

/-- What digits with the highest first stand for. -/
def value (b : Nat) (ds : List Nat) : Nat := Nat.ofDigits b ds.reverse

variable {b n : Nat}

theorem lowFirst_of_lt (h : n < b) : lowFirst b n = [n] := by
  unfold lowFirst
  by_cases hn : n = 0
  · rw [if_pos hn, hn]
  · rw [if_neg hn, Nat.digits_of_lt b n hn h]

/-- The lowest digit and the others. -/
theorem lowFirst_step (hb : 1 < b) (h : b ≤ n) : lowFirst b n = n % b :: lowFirst b (n / b) := by
  have hn : n ≠ 0 := by omega
  have hdiv : n / b ≠ 0 := (Nat.div_pos h (by omega)).ne'
  unfold lowFirst
  rw [if_neg hn, if_neg hdiv, Nat.digits_def' hb (Nat.pos_of_ne_zero hn)]

theorem lowFirst_ne_nil : lowFirst b n ≠ [] := by
  unfold lowFirst
  by_cases hn : n = 0
  · rw [if_pos hn]
    exact List.cons_ne_nil _ _
  · rw [if_neg hn]
    exact Nat.digits_ne_nil_iff_ne_zero.mpr hn

/-- The digits of a number have its value. -/
theorem ofDigits_lowFirst (b n : Nat) : Nat.ofDigits b (lowFirst b n) = n := by
  unfold lowFirst
  by_cases hn : n = 0
  · rw [if_pos hn, hn, Nat.ofDigits_singleton]
  · rw [if_neg hn, Nat.ofDigits_digits]

/-- The digits are below the base. -/
theorem lt_of_mem_lowFirst (hb : 1 < b) {d : Nat} (hd : d ∈ lowFirst b n) : d < b := by
  unfold lowFirst at hd
  by_cases hn : n = 0
  · rw [if_pos hn, List.mem_singleton] at hd
    omega
  · rw [if_neg hn] at hd
    exact Nat.digits_lt_base hb hd

/-- A number below `b ^ k` has at most `k` digits. -/
theorem length_lowFirst_le {k : Nat} (hb : 1 < b) (hk : 0 < k) (h : n < b ^ k) :
    (lowFirst b n).length ≤ k := by
  unfold lowFirst
  by_cases hn : n = 0
  · rw [if_pos hn]
    exact hk
  · rw [if_neg hn]
    exact (Nat.digits_length_le_iff hb n).mpr h

/-- The length of a padded numeral. -/
theorem length_numeral (b width n : Nat) :
    (numeral b width n).length = max width (lowFirst b n).length := by
  unfold numeral
  rw [List.length_reverse, List.length_rightpad]

theorem numeral_ne_nil {width : Nat} : numeral b width n ≠ [] := by
  have hlen := length_numeral b width n
  have hpos := List.length_pos_iff.mpr (lowFirst_ne_nil (b := b) (n := n))
  exact List.ne_nil_of_length_pos (by omega)

theorem lt_of_mem_numeral {width d : Nat} (hb : 1 < b) (hd : d ∈ numeral b width n) : d < b := by
  unfold numeral List.rightpad at hd
  rw [List.mem_reverse, List.mem_append] at hd
  rcases hd with hd | hd
  · exact lt_of_mem_lowFirst hb hd
  · rw [List.eq_of_mem_replicate hd]
    omega

/-- The zeros in front do not matter. -/
theorem value_numeral (b width n : Nat) : value b (numeral b width n) = n := by
  unfold value numeral List.rightpad
  rw [List.reverse_reverse, Nat.ofDigits_append_replicate_zero, ofDigits_lowFirst]

end Numerals
