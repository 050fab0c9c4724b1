import Mathlib.Tactic

/-!
# Byte-addressed stores

A store is a total function from addresses to bytes.  Memory, sector buffers
and whole disks are all stores here; a fixed-size buffer is the part of a store
below its size.  The three ways a program changes one are a little-endian word
store (`wr32`), a single byte (`wr8`) and a block move (`blit`), and each has
one lemma per way of reading the result back.

The last part is about read-modify-write: a buffer that `Caches` a window of a
larger store may be edited in place and moved back, and the effect on the large
store is exactly the edit at the shifted address.
-/

namespace ByteStore

/-- A byte-addressed store. -/
abbrev Store := Nat → UInt8

/-- The all-zero store. -/
def zeros : Store := fun _ => 0

/-- The little-endian 32-bit word at address `a`. -/
def rd32 (m : Store) (a : Nat) : Nat :=
  (m a).toNat + 256 * (m (a + 1)).toNat + 65536 * (m (a + 2)).toNat +
    16777216 * (m (a + 3)).toNat

/-- Store one byte. -/
def wr8 (m : Store) (a : Nat) (x : UInt8) : Store :=
  fun k => if k = a then x else m k

/-- Store the low 32 bits of `v` at address `a`, low byte first. -/
def wr32 (m : Store) (a v : Nat) : Store := fun k =>
  if k = a then UInt8.ofNat v
  else if k = a + 1 then UInt8.ofNat (v / 256)
  else if k = a + 2 then UInt8.ofNat (v / 65536)
  else if k = a + 3 then UInt8.ofNat (v / 16777216)
  else m k

/-- Move `n` bytes of `src` from address `b` to address `a` of `m`. -/
def blit (m : Store) (a : Nat) (src : Store) (b n : Nat) : Store :=
  fun k => if a ≤ k ∧ k < a + n then src (b + (k - a)) else m k

/-! ## Reading back -/

/-- A word has 32 bits. -/
theorem rd32_lt (m : Store) (a : Nat) : rd32 m a < 2 ^ 32 := by
  have h0 := (m a).toNat_lt
  have h1 := (m (a + 1)).toNat_lt
  have h2 := (m (a + 2)).toNat_lt
  have h3 := (m (a + 3)).toNat_lt
  unfold rd32
  omega

/-- Equal words have equal bytes. -/
theorem byte_eq_of_rd32 {m m' : Store} {a k : Nat} (h : rd32 m a = rd32 m' a) (hk : k < 4) :
    m (a + k) = m' (a + k) := by
  have h0 := (m a).toNat_lt
  have h1 := (m (a + 1)).toNat_lt
  have h2 := (m (a + 2)).toNat_lt
  have h3 := (m (a + 3)).toNat_lt
  have h0' := (m' a).toNat_lt
  have h1' := (m' (a + 1)).toNat_lt
  have h2' := (m' (a + 2)).toNat_lt
  have h3' := (m' (a + 3)).toNat_lt
  unfold rd32 at h
  apply UInt8.toNat_inj.mp
  rcases (by omega : k = 0 ∨ k = 1 ∨ k = 2 ∨ k = 3) with hk | hk | hk | hk <;> subst hk
  · change (m a).toNat = (m' a).toNat
    omega
  · omega
  · omega
  · omega

/-- A word depends on its own four bytes only. -/
theorem rd32_congr {m m' : Store} {a b : Nat}
    (h : ∀ k, k < 4 → m (a + k) = m' (b + k)) : rd32 m a = rd32 m' b := by
  have h0 : m a = m' b := h 0 (by omega)
  have h1 := h 1 (by omega)
  have h2 := h 2 (by omega)
  have h3 := h 3 (by omega)
  simp only [rd32, h0, h1, h2, h3]

theorem rd32_eq_zero {m : Store} {a : Nat} (h : ∀ k, k < 4 → m (a + k) = 0) :
    rd32 m a = 0 := by
  have hz : rd32 m a = rd32 zeros 0 := rd32_congr h
  exact hz

/-- The bytes of a zero word are zero. -/
theorem eq_zero_of_rd32_eq_zero {m : Store} {a k : Nat} (h : rd32 m a = 0) (hk : k < 4) :
    m (a + k) = 0 := by
  have hbyte : (m (a + k)).toNat = 0 := by
    unfold rd32 at h
    have hcases : k = 0 ∨ k = 1 ∨ k = 2 ∨ k = 3 := by omega
    rcases hcases with hk | hk | hk | hk <;> subst hk
    · rw [Nat.add_zero]
      omega
    · omega
    · omega
    · omega
  exact UInt8.toNat_inj.mp hbyte

@[simp] theorem zeros_apply (k : Nat) : zeros k = 0 := rfl

/-- Every word of the all-zero store is zero. -/
@[simp] theorem rd32_zeros (a : Nat) : rd32 zeros a = 0 := rfl

/-- A word that was stored is read back, modulo its width. -/
theorem rd32_wr32 (m : Store) (a v : Nat) : rd32 (wr32 m a v) a = v % 2 ^ 32 := by
  simp only [rd32, wr32]
  simp
  omega

/-- A word that fits is read back. -/
theorem rd32_wr32_of_lt (m : Store) {a v : Nat} (hv : v < 2 ^ 32) :
    rd32 (wr32 m a v) a = v := by
  rw [rd32_wr32, Nat.mod_eq_of_lt hv]

theorem wr32_apply_of_ne (m : Store) {a v k : Nat} (h : k < a ∨ a + 4 ≤ k) :
    wr32 m a v k = m k := by
  unfold wr32
  rw [if_neg (by omega), if_neg (by omega), if_neg (by omega), if_neg (by omega)]

theorem rd32_wr32_of_ne (m : Store) {a b v : Nat} (h : b + 4 ≤ a ∨ a + 4 ≤ b) :
    rd32 (wr32 m a v) b = rd32 m b :=
  rd32_congr fun _ hk => wr32_apply_of_ne m (by omega)

/-- A byte that was stored is read back. -/
theorem wr8_apply (m : Store) (a : Nat) (x : UInt8) : wr8 m a x a = x := by
  simp [wr8]

theorem wr8_apply_of_ne (m : Store) {a k : Nat} (x : UInt8) (h : k ≠ a) :
    wr8 m a x k = m k := by
  simp [wr8, h]

theorem rd32_wr8_of_ne (m : Store) {a b : Nat} (x : UInt8) (h : a < b ∨ b + 4 ≤ a) :
    rd32 (wr8 m a x) b = rd32 m b :=
  rd32_congr fun _ hk => wr8_apply_of_ne m x (by omega)

/-- A byte of the area comes from the source. -/
theorem blit_apply_of_mem (m src : Store) {a b n k : Nat} (h : a ≤ k) (hk : k < a + n) :
    blit m a src b n k = src (b + (k - a)) := by
  simp [blit, h, hk]

/-- The same, by its distance from the start. -/
theorem blit_apply_add (m src : Store) {a b n k : Nat} (hk : k < n) :
    blit m a src b n (a + k) = src (b + k) := by
  rw [blit_apply_of_mem m src (by omega) (by omega)]
  congr 2
  omega

theorem blit_apply_of_ne (m src : Store) {a b n k : Nat} (h : k < a ∨ a + n ≤ k) :
    blit m a src b n k = m k := by
  unfold blit
  rw [if_neg (by omega)]

theorem rd32_blit_of_ne (m src : Store) {a b n c : Nat} (h : c + 4 ≤ a ∨ a + n ≤ c) :
    rd32 (blit m a src b n) c = rd32 m c :=
  rd32_congr fun _ hk => blit_apply_of_ne m src (by omega)

/-- A word of the area comes from the source. -/
theorem rd32_blit_add (m src : Store) {a b n k : Nat} (hk : k + 4 ≤ n) :
    rd32 (blit m a src b n) (a + k) = rd32 src (b + k) :=
  rd32_congr fun j hj => by
    rw [Nat.add_assoc, Nat.add_assoc]
    exact blit_apply_add m src (by omega)

@[simp] theorem blit_zero (m src : Store) (a b : Nat) : blit m a src b 0 = m := by
  funext k
  exact blit_apply_of_ne m src (by omega)

/-- Consecutive moves are one move. -/
theorem blit_append (m src : Store) (a b n k : Nat) :
    blit (blit m a src b n) (a + n) src (b + n) k = blit m a src b (n + k) := by
  funext j
  by_cases hhi : a + n ≤ j ∧ j < a + n + k
  · rw [blit_apply_of_mem _ _ hhi.1 hhi.2, blit_apply_of_mem _ _ (by omega) (by omega)]
    congr 1
    omega
  · rw [blit_apply_of_ne _ _ (by omega)]
    by_cases hlo : a ≤ j ∧ j < a + n
    · rw [blit_apply_of_mem _ _ hlo.1 hlo.2, blit_apply_of_mem _ _ (by omega) (by omega)]
    · rw [blit_apply_of_ne _ _ (by omega), blit_apply_of_ne _ _ (by omega)]

/-- Clearing two adjacent ranges is clearing one. -/
theorem blit_zeros_append (m : Store) (a n k : Nat) :
    blit (blit m a zeros 0 n) (a + n) zeros 0 k = blit m a zeros 0 (n + k) :=
  blit_append m zeros a 0 n k

/-- A move reads only the bytes it moves. -/
theorem blit_congr {m src src' : Store} {a b b' n : Nat}
    (h : ∀ k, k < n → src (b + k) = src' (b' + k)) :
    blit m a src b n = blit m a src' b' n := by
  funext k
  by_cases hk : a ≤ k ∧ k < a + n
  · rw [blit_apply_of_mem _ _ hk.1 hk.2, blit_apply_of_mem _ _ hk.1 hk.2]
    exact h _ (by omega)
  · rw [blit_apply_of_ne _ _ (by omega), blit_apply_of_ne _ _ (by omega)]

/-- Moves into disjoint ranges commute. -/
theorem blit_comm (m src src' : Store) {a b n a' b' n' : Nat}
    (h : a + n ≤ a' ∨ a' + n' ≤ a) :
    blit (blit m a src b n) a' src' b' n' = blit (blit m a' src' b' n') a src b n := by
  funext k
  simp only [blit]
  split_ifs <;> first | rfl | omega

/-- A byte store outside the range of a move commutes with it. -/
theorem blit_wr8_comm (m src : Store) {a b n k : Nat} (x : UInt8)
    (h : k < a ∨ a + n ≤ k) :
    blit (wr8 m k x) a src b n = wr8 (blit m a src b n) k x := by
  funext j
  simp only [blit, wr8]
  split_ifs <;> first | rfl | omega

/-- Inside the stored word the old contents do not matter. -/
theorem wr32_apply_congr (m m' : Store) {a v k : Nat} (h : a ≤ k) (hk : k < a + 4) :
    wr32 m a v k = wr32 m' a v k := by
  unfold wr32
  split_ifs <;> first | rfl | omega

/-- Word stores at disjoint addresses commute. -/
theorem wr32_comm (m : Store) {a b v w : Nat} (h : a + 4 ≤ b ∨ b + 4 ≤ a) :
    wr32 (wr32 m a v) b w = wr32 (wr32 m b w) a v := by
  funext k
  by_cases ha : a ≤ k ∧ k < a + 4
  · rw [wr32_apply_of_ne _ (by omega), wr32_apply_congr m (wr32 m b w) ha.1 ha.2]
  · rw [wr32_apply_of_ne (wr32 m b w) (by omega)]
    by_cases hb : b ≤ k ∧ k < b + 4
    · exact wr32_apply_congr _ _ hb.1 hb.2
    · rw [wr32_apply_of_ne _ (by omega), wr32_apply_of_ne _ (by omega),
        wr32_apply_of_ne _ (by omega)]

/-! ## Read, modify, write -/

/-- The first `n` bytes of `buf` are the window of `m` that starts at `a`. -/
def Caches (buf m : Store) (a n : Nat) : Prop :=
  ∀ k, k < n → buf k = m (a + k)

/-- A buffer that was loaded is the window. -/
theorem caches_load (buf m : Store) (a n : Nat) : Caches (blit buf 0 m a n) m a n := by
  intro k hk
  have h := blit_apply_add buf m (a := 0) (b := a) hk
  rwa [Nat.zero_add] at h

/-- A buffer that was stored is the window. -/
theorem caches_store (buf m : Store) (a n : Nat) : Caches buf (blit m a buf 0 n) a n := by
  intro k hk
  rw [blit_apply_add m buf hk, Nat.zero_add]

/-- A word of the buffer is that of the window. -/
theorem Caches.rd32 {buf m : Store} {a n k : Nat} (h : Caches buf m a n)
    (hk : k + 4 ≤ n) : rd32 buf k = rd32 m (a + k) :=
  rd32_congr fun j hj => by
    rw [h (k + j) (by omega), Nat.add_assoc]

theorem Caches.congr {buf m m' : Store} {a n : Nat} (h : Caches buf m a n)
    (hm : ∀ k, a ≤ k → k < a + n → m' k = m k) : Caches buf m' a n := by
  intro k hk
  rw [h k hk, hm (a + k) (by omega) (by omega)]

/-- Moving an unmodified buffer back changes nothing. -/
theorem Caches.store_eq {buf m : Store} {a n : Nat} (h : Caches buf m a n) :
    blit m a buf 0 n = m := by
  funext k
  by_cases hk : a ≤ k ∧ k < a + n
  · rw [blit_apply_of_mem m buf hk.1 hk.2, h _ (by omega)]
    congr 1
    omega
  · exact blit_apply_of_ne m buf (by omega)

/-- A word stored in the buffer is a word stored behind it. -/
theorem store_wr32 (m buf : Store) {a n k v : Nat} (hk : k + 4 ≤ n) :
    blit m a (wr32 buf k v) 0 n = wr32 (blit m a buf 0 n) (a + k) v := by
  funext j
  by_cases hj : a ≤ j ∧ j < a + n
  · rw [blit_apply_of_mem _ _ hj.1 hj.2]
    simp only [wr32, blit_apply_of_mem m buf hj.1 hj.2]
    have h0 : (0 + (j - a) = k) = (j = a + k) := by apply propext; omega
    have h1 : (0 + (j - a) = k + 1) = (j = a + k + 1) := by apply propext; omega
    have h2 : (0 + (j - a) = k + 2) = (j = a + k + 2) := by apply propext; omega
    have h3 : (0 + (j - a) = k + 3) = (j = a + k + 3) := by apply propext; omega
    simp only [h0, h1, h2, h3]
  · rw [blit_apply_of_ne _ _ (by omega), wr32_apply_of_ne _ (by omega),
      blit_apply_of_ne _ _ (by omega)]

/-- A byte stored in the buffer is a byte stored behind it. -/
theorem store_wr8 (m buf : Store) {a n k : Nat} (x : UInt8) (hk : k < n) :
    blit m a (wr8 buf k x) 0 n = wr8 (blit m a buf 0 n) (a + k) x := by
  funext j
  by_cases hj : a ≤ j ∧ j < a + n
  · rw [blit_apply_of_mem _ _ hj.1 hj.2]
    simp only [wr8, blit_apply_of_mem m buf hj.1 hj.2]
    have h0 : (0 + (j - a) = k) = (j = a + k) := by apply propext; omega
    simp only [h0]
  · rw [blit_apply_of_ne _ _ (by omega), wr8_apply_of_ne _ _ (by omega),
      blit_apply_of_ne _ _ (by omega)]

/-- A range moved into the buffer is a range moved behind it. -/
theorem store_blit (m buf src : Store) {a n k b len : Nat} (hk : k + len ≤ n) :
    blit m a (blit buf k src b len) 0 n = blit (blit m a buf 0 n) (a + k) src b len := by
  funext j
  by_cases hin : a + k ≤ j ∧ j < a + k + len
  · rw [blit_apply_of_mem _ _ (by omega) (by omega),
      blit_apply_of_mem _ _ (by omega) (by omega), blit_apply_of_mem _ _ hin.1 hin.2]
    congr 1
    omega
  · rw [blit_apply_of_ne (blit m a buf 0 n) src (by omega)]
    by_cases hj : a ≤ j ∧ j < a + n
    · rw [blit_apply_of_mem _ _ hj.1 hj.2, blit_apply_of_mem _ _ hj.1 hj.2,
        blit_apply_of_ne _ _ (by omega)]
    · rw [blit_apply_of_ne _ _ (by omega), blit_apply_of_ne _ _ (by omega)]

end ByteStore
