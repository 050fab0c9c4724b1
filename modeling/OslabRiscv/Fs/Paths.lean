import OslabRiscv.Fs.Walk

/-!
# Cutting a path

What `getDir` and `getSubdir` do to one component: a run of bytes that are
neither zero nor `/`, and the byte behind it.  Both look at the first `D_NAME`
bytes only.
-/

namespace Fs

open ByteStore Outcome

/-- The `n` bytes at `a` are neither zero nor `/`. -/
def PlainRun (mem : Store) (a n : Nat) : Prop :=
  ∀ m, m < n → mem (a + m) ≠ 0 ∧ mem (a + m) ≠ 47

section Cutting

variable {mem : Store} {path n : Nat}

/-- A run without slash that a null ends is a string. -/
theorem PlainRun.ends (h : PlainRun mem path n) (hend : mem (path + n) = 0) :
    NameEnds mem path n :=
  ⟨hend, fun m hm => (h m hm).1⟩

/-- The loop of `getDir` passes over plain bytes. -/
theorem getDirLoop_skip {left i k : Nat} (h : ∀ m, i ≤ m → m < i + k → mem (path + m) ≠ 0 ∧
    mem (path + m) ≠ 47) :
    getDirLoop mem path (k + left) i = getDirLoop mem path left (i + k) := by
  induction k generalizing i with
  | zero => rw [Nat.zero_add, Nat.add_zero]
  | succ k ih =>
      obtain ⟨hz, hslash⟩ := h i (Nat.le_refl i) (by omega)
      have hstep : getDirLoop mem path (k + left + 1) i =
          getDirLoop mem path (k + left) (i + 1) := by
        rw [getDirLoop, if_neg hz, if_neg hslash]
      rw [show k + 1 + left = k + left + 1 by omega, hstep,
        ih fun m hm hlt => h m (by omega) (by omega), show i + 1 + k = i + (k + 1) by omega]

/-- The loop of `getDir` goes over such a run. -/
theorem getDirLoop_run (h : PlainRun mem path n) (hn : n ≤ dName) :
    getDirLoop mem path dName 0 = getDirLoop mem path (dName - n) n := by
  have hskip : getDirLoop mem path (n + (dName - n)) 0 =
      getDirLoop mem path (dName - n) (0 + n) := getDirLoop_skip fun m _ hm => h m (by omega)
  rw [Nat.zero_add, Nat.add_sub_cancel' hn] at hskip
  exact hskip

theorem getDir_ok (hp : path ≠ 0) : getDir mem path = .ok (getDirLoop mem path dName 0) :=
  if_neg hp

/-- The last component stays where it is. -/
theorem getDir_end (hp : path ≠ 0) (h : PlainRun mem path n) (hn : n < dName)
    (hend : mem (path + n) = 0) : getDir mem path = .ok (path, mem) := by
  obtain ⟨left, hleft⟩ : ∃ left, dName - n = left + 1 := ⟨dName - n - 1, by omega⟩
  rw [getDir_ok hp, getDirLoop_run h (by omega), hleft]
  unfold getDirLoop
  rw [if_pos hend]

/-- An inner component is cut off at its `/`. -/
theorem getDir_slash (hp : path ≠ 0) (h : PlainRun mem path n) (hn : n < dName)
    (hslash : mem (path + n) = 47) : getDir mem path = .ok (path, wr8 mem (path + n) 0) := by
  obtain ⟨left, hleft⟩ : ∃ left, dName - n = left + 1 := ⟨dName - n - 1, by omega⟩
  rw [getDir_ok hp, getDirLoop_run h (by omega), hleft]
  unfold getDirLoop
  rw [if_neg (by rw [hslash]; decide), if_pos hslash]

/-- A component that is too long gives the null pointer. -/
theorem getDir_long (hp : path ≠ 0) (h : PlainRun mem path dName) :
    getDir mem path = .ok (0, mem) := by
  rw [getDir_ok hp, getDirLoop_run h (Nat.le_refl dName), Nat.sub_self]
  rfl

theorem getSubdirLoop_skip {left i k : Nat} (h : ∀ m, i ≤ m → m < i + k → mem (path + m) ≠ 0) :
    getSubdirLoop mem path (k + left) i = getSubdirLoop mem path left (i + k) := by
  induction k generalizing i with
  | zero => rw [Nat.zero_add, Nat.add_zero]
  | succ k ih =>
      have hstep : getSubdirLoop mem path (k + left + 1) i =
          getSubdirLoop mem path (k + left) (i + 1) := by
        rw [getSubdirLoop, if_neg (h i (Nat.le_refl i) (by omega))]
      rw [show k + 1 + left = k + left + 1 by omega, hstep,
        ih fun m hm hlt => h m (by omega) (by omega), show i + 1 + k = i + (k + 1) by omega]

/-- The loop of `getSubdir` goes over such a run. -/
theorem getSubdirLoop_run (h : ∀ m, m < n → mem (path + m) ≠ 0) (hn : n ≤ dName) :
    getSubdir mem path = getSubdirLoop mem path (dName - n) n := by
  have hskip : getSubdirLoop mem path (n + (dName - n)) 0 =
      getSubdirLoop mem path (dName - n) (0 + n) :=
    getSubdirLoop_skip fun m _ hm => h m (by omega)
  rw [Nat.zero_add, Nat.add_sub_cancel' hn] at hskip
  exact hskip

/-- What follows the zero byte, unless the component fills the name field. -/
theorem getSubdir_end (h : NameEnds mem path n) (hn : n < dName) :
    getSubdir mem path = if n + 1 = dName then 0 else path + n + 1 := by
  obtain ⟨left, hleft⟩ : ∃ left, dName - n = left + 1 := ⟨dName - n - 1, by omega⟩
  rw [getSubdirLoop_run h.2 (by omega), hleft]
  unfold getSubdirLoop
  rw [if_pos h.1]

end Cutting

end Fs
