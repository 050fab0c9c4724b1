import OslabRiscv.Lib.ByteStore

/-!
# Stores that agree below a bound

A buffer is the part of a store below its size.  Two buffers with the same contents stay so
whatever is done to both, and nothing that reads inside of them can tell them apart.
-/

namespace ByteStore

/-- The stores hold the same bytes below `n`. -/
def Agree (n : Nat) (m m' : Store) : Prop := ∀ i, i < n → m' i = m i

variable {n : Nat} {m m' src src' : Store}

theorem Agree.refl (n : Nat) (m : Store) : Agree n m m := fun _ _ => rfl

theorem Agree.wr8 (h : Agree n m m') (a : Nat) (x : UInt8) : Agree n (wr8 m a x) (wr8 m' a x) := by
  intro i hi
  by_cases hia : i = a
  · rw [hia, wr8_apply, wr8_apply]
  · rw [wr8_apply_of_ne _ _ hia, wr8_apply_of_ne _ _ hia]
    exact h i hi

theorem Agree.wr32 (h : Agree n m m') (a v : Nat) : Agree n (wr32 m a v) (wr32 m' a v) := by
  intro i hi
  by_cases hin : a ≤ i ∧ i < a + 4
  · exact wr32_apply_congr _ _ hin.1 hin.2
  · rw [wr32_apply_of_ne _ (by omega), wr32_apply_of_ne _ (by omega)]
    exact h i hi

theorem Agree.blit (h : Agree n m m') (a : Nat) (src : Store) (b k : Nat) :
    Agree n (blit m a src b k) (blit m' a src b k) := by
  intro i hi
  by_cases hin : a ≤ i ∧ i < a + k
  · rw [blit_apply_of_mem _ _ hin.1 hin.2, blit_apply_of_mem _ _ hin.1 hin.2]
  · rw [blit_apply_of_ne _ _ (by omega), blit_apply_of_ne _ _ (by omega)]
    exact h i hi

/-- A buffer filled up to its end no longer depends on what it held. -/
theorem agree_blit (m m' src : Store) (b n : Nat) : Agree n (blit m 0 src b n) (blit m' 0 src b n) := by
  intro i hi
  rw [blit_apply_of_mem _ _ (Nat.zero_le i) (by omega),
    blit_apply_of_mem _ _ (Nat.zero_le i) (by omega)]

/-- What is moved out of the buffers is the same. -/
theorem Agree.moved (h : Agree n src src') (m : Store) (a b : Nat) {k : Nat} (hk : k ≤ n - b) :
    ByteStore.blit m a src' b k = ByteStore.blit m a src b k :=
  blit_congr fun j hj => h (b + j) (by omega)

theorem Agree.rd32 (h : Agree n m m') {a : Nat} (ha : a + 4 ≤ n) :
    ByteStore.rd32 m' a = ByteStore.rd32 m a :=
  rd32_congr fun k hk => h (a + k) (by omega)

end ByteStore
