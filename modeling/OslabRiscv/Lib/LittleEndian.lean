import Mathlib.Tactic

/-!
# Numbers as bytes

A number is stored with its lowest byte first.  `bytes n v` are the `n` lowest
bytes of `v`, and `value` reads any number of bytes back.
-/

namespace LittleEndian

/-- The `n` lowest bytes of `v`. -/
def bytes : Nat → Nat → List UInt8
  | 0, _ => []
  | n + 1, v => UInt8.ofNat v :: bytes n (v / 256)

/-- The number the bytes stand for. -/
def value : List UInt8 → Nat
  | [] => 0
  | b :: bs => b.toNat + 256 * value bs

@[simp] theorem length_bytes (n v : Nat) : (bytes n v).length = n := by
  induction n generalizing v with
  | zero => rfl
  | succ n ih => rw [bytes, List.length_cons, ih]

/-- What does not fit into the bytes is lost, and nothing else. -/
theorem value_bytes (n v : Nat) : value (bytes n v) = v % 256 ^ n := by
  induction n generalizing v with
  | zero => rw [pow_zero, Nat.mod_one]; rfl
  | succ n ih =>
      have hbyte : (UInt8.ofNat v).toNat = v % 256 := UInt8.toNat_ofNat'
      rw [bytes, value, ih, hbyte, pow_succ', Nat.mod_mul]

theorem value_bytes_of_lt {n v : Nat} (h : v < 256 ^ n) : value (bytes n v) = v := by
  rw [value_bytes, Nat.mod_eq_of_lt h]

/-- Byte `k` of the number. -/
theorem byte_value : ∀ (bs : List UInt8) (k : Nat) (hk : k < bs.length),
    UInt8.ofNat (value bs / 256 ^ k) = bs[k] := by
  intro bs
  induction bs with
  | nil => exact fun k hk => absurd hk (Nat.not_lt_zero k)
  | cons b bs ih =>
      intro k hk
      have hb := b.toNat_lt
      cases k with
      | zero =>
          refine UInt8.toNat_inj.1 ?_
          simp only [value, pow_zero, Nat.div_one, List.getElem_cons_zero, UInt8.toNat_ofNat']
          omega
      | succ k =>
          have hrest : (b.toNat + 256 * value bs) / 256 = value bs := by omega
          rw [value, pow_succ', ← Nat.div_div_eq_div_mul, hrest, List.getElem_cons_succ]
          exact ih k _

end LittleEndian
