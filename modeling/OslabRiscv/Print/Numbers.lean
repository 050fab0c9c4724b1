import OslabRiscv.Print.Printk

/-!
# Printed numbers

`mini_itoa` prints the numeral of a number, with a minus in front of the zeros' front.  The loop of
`printk.c` does so for all numbers but the smallest `long`; the one of `printf.c` goes on only while
the value is above zero, and so gets no further than the lowest digit of an `unsigned long` from
`2 ^ 63` on.
-/

namespace Print

open Assembly (Word)
open Numerals TinyLibc

/-! ## Digits -/

/-- The characters of digits in bases up to sixteen. -/
theorem digitChar_nat (uppercase : Bool) {d : Nat} (h : d < 16) :
    digitChar uppercase d =
      UInt8.ofNat (if d < 10 then 48 + d else (if uppercase then 55 else 87) + d) := by
  revert uppercase d
  decide

/-- A decimal digit is printed as one. -/
theorem isdigit_digitChar {d : Nat} (h : d < 10) :
    isdigit (digitChar false d) = true ∧ digitVal (digitChar false d) = d := by
  revert d
  decide

/-- The value of a digit that was printed. -/
theorem digitVal_digitChar (uppercase : Bool) {d : Nat} (h : d < 16) :
    digitVal (digitChar uppercase d) = d := by
  revert uppercase d
  decide

/-- The characters of digits. -/
def chars (uppercase : Bool) (ds : List Nat) : List UInt8 := ds.map fun d : Nat => digitChar uppercase d

/-! ## The loop over the digits -/

section Loop

variable {f : Copy} {radix n : Nat} {uppercase unsig : Bool}

/-- A number below 2^63 is itself as a `long`. -/
theorem long_nat (h : n < 2 ^ 63) : long n = n := long_fits ⟨by omega, by exact_mod_cast h⟩

/-- One round on such a number gives its last digit and the rest. -/
theorem round_nat (f : Copy) (unsig : Bool) (radix : Nat) (h : n < 2 ^ 63) :
    f.round unsig radix (n : Int) = (((n % radix : Nat) : Int), ((n / radix : Nat) : Int)) := by
  have hmod : ((n : Int) % 2 ^ 64).toNat = n := by omega
  have hdiv : n / radix < 2 ^ 63 := lt_of_le_of_lt (Nat.div_le_self n radix) h
  have hsigned : ((n : Int).tmod radix, (n : Int).tdiv radix) =
      (((n % radix : Nat) : Int), ((n / radix : Nat) : Int)) := rfl
  cases f with
  | printf => exact hsigned
  | printk =>
    cases unsig with
    | false => exact hsigned
    | true =>
      simp only [Copy.round, hmod, if_true]
      rw [long_nat hdiv]

/-- There is another round exactly if there are more digits. -/
theorem more_nat (f : Copy) (n : Nat) : f.more (n : Int) = (n != 0) := by
  cases f with
  | printk => cases n <;> rfl
  | printf =>
    rw [Bool.eq_iff_iff]
    simp only [Copy.more, decide_eq_true_eq, bne_iff_ne]
    omega

/-- One round, and the rounds for the rest. -/
theorem digitsLoop_round {value : Int} {rounds : Nat} (hradix : 1 < radix)
    (hround : f.round unsig radix value = (((n % radix : Nat) : Int), ((n / radix : Nat) : Int)))
    (hrest : radix ≤ n → digitsLoop f radix uppercase unsig rounds ((n / radix : Nat) : Int) =
      .ok (chars uppercase (lowFirst radix (n / radix)))) :
    digitsLoop f radix uppercase unsig (rounds + 1) value =
      .ok (chars uppercase (lowFirst radix n)) := by
  unfold digitsLoop
  simp only [hround, more_nat]
  by_cases hlt : n < radix
  · have hdiv : n / radix = 0 := Nat.div_eq_of_lt hlt
    rw [hdiv, if_neg (by decide), lowFirst_of_lt hlt, Nat.mod_eq_of_lt hlt]
    rfl
  · have hge : radix ≤ n := Nat.le_of_not_lt hlt
    have hdiv : (n / radix != 0) = true := bne_iff_ne.mpr (Nat.div_pos hge (by omega)).ne'
    rw [if_pos hdiv, hrest hge, lowFirst_step hradix hge]
    rfl

/-- The loop gives the digits of such a number, lowest first, by induction on its rounds. -/
theorem digitsLoop_nat (hradix : 1 < radix) : ∀ (rounds n : Nat), n < 2 ^ 63 →
    (lowFirst radix n).length ≤ rounds → digitsLoop f radix uppercase unsig rounds (n : Int) =
      .ok (chars uppercase (lowFirst radix n)) := by
  intro rounds
  induction rounds with
  | zero =>
    intro n _ hlen
    exact absurd (List.length_eq_zero_iff.mp (Nat.le_zero.mp hlen)) lowFirst_ne_nil
  | succ rounds ih =>
    intro n hn hlen
    refine digitsLoop_round hradix (round_nat f unsig radix hn) fun hge => ?_
    rw [lowFirst_step hradix hge] at hlen
    exact ih _ (lt_of_le_of_lt (Nat.div_le_self n radix) hn) (Nat.le_of_succ_le_succ hlen)

/-- The numbers from which `mini_itoa` gets the right digits. -/
def Copy.Covers (f : Copy) (unsig : Bool) (value : Int) : Prop :=
  match f with
  | .printk => unsig = true ∨ value ≠ -2 ^ 63
  | .printf => if unsig then 0 ≤ value else value ≠ -2 ^ 63

/-- What the number is apart from its sign. -/
def magnitude (unsig : Bool) (value : Int) : Nat :=
  if unsig then (value % 2 ^ 64).toNat else value.natAbs

/-- The value the loop starts from. -/
def startValue (unsig : Bool) (value : Int) : Int :=
  if value < 0 && !unsig then long (-value) else value

/-- A magnitude has 64 bits. -/
theorem magnitude_lt (unsig : Bool) {value : Int} (hfit : FitsLong value) : magnitude unsig value < 2 ^ 64 := by
  unfold magnitude FitsLong at *
  cases unsig with
  | false =>
    rw [if_neg (by decide)]
    omega
  | true =>
    rw [if_pos rfl]
    omega

/-- The loop starts from the magnitude, but for the least number. -/
theorem startValue_signed {value : Int} (hfit : FitsLong value) (hne : value ≠ -2 ^ 63) :
    startValue false value = (value.natAbs : Int) ∧ value.natAbs < 2 ^ 63 := by
  obtain ⟨hlo, hhi⟩ := hfit
  refine ⟨?_, by omega⟩
  unfold startValue
  by_cases hneg : value < 0
  · rw [if_pos (by simpa using hneg), long_fits ⟨by omega, by omega⟩]
    omega
  · rw [if_neg (by simpa using hneg)]
    omega

/-- The loop gives the digits of the magnitude. -/
theorem digitsLoop_spec (uppercase : Bool) {value : Int} (hradix : 1 < radix) (hfit : FitsLong value)
    (hcov : f.Covers unsig value) :
    digitsLoop f radix uppercase unsig 64 (startValue unsig value) =
      .ok (chars uppercase (lowFirst radix (magnitude unsig value))) := by
  have hlt := magnitude_lt unsig hfit
  have hlen : (lowFirst radix (magnitude unsig value)).length ≤ 64 :=
    length_lowFirst_le hradix (by decide) (lt_of_lt_of_le hlt (Nat.pow_le_pow_left hradix 64))
  cases unsig with
  | false =>
    have hne : value ≠ -2 ^ 63 := by
      cases f with
      | printk => exact hcov.resolve_left (by decide)
      | printf => exact hcov
    obtain ⟨hstart, hsmall⟩ := startValue_signed hfit hne
    rw [hstart]
    exact digitsLoop_nat hradix 64 _ hsmall hlen
  | true =>
    have hstart : startValue true value = value := if_neg (by simp)
    have hmag : magnitude true value = (value % 2 ^ 64).toNat := rfl
    rw [hstart]
    rw [hmag] at hlen hlt ⊢
    cases f with
    | printf =>
      have hnat : value = ((value % 2 ^ 64).toNat : Int) ∧ (value % 2 ^ 64).toNat < 2 ^ 63 := by
        have hpos : 0 ≤ value := hcov
        obtain ⟨_, hhi⟩ := hfit
        omega
      conv_lhs => rw [hnat.1]
      exact digitsLoop_nat hradix 64 _ hnat.2 hlen
    | printk =>
      have hdiv : (value % 2 ^ 64).toNat / radix < 2 ^ 63 := by
        rw [Nat.div_lt_iff_lt_mul (by omega)]
        omega
      refine digitsLoop_round hradix ?_ fun hge => ?_
      · simp only [Copy.round, if_true]
        rw [long_nat hdiv]
      · rw [lowFirst_step hradix hge] at hlen
        exact digitsLoop_nat hradix 63 _ hdiv (Nat.le_of_succ_le_succ hlen)

end Loop

/-! ## Turning the buffer round -/

section Swap

variable {len : Nat} {buffer : List UInt8}

/-- One swap of `mini_itoa`. -/
theorem getElem?_swap {i : Nat} (hlen : buffer.length = len) (hi : i < len / 2) (k : Nat) :
    ((buffer.set i (buffer.getD (len - i - 1) 0)).set (len - i - 1) (buffer.getD i 0))[k]? =
      if k = i ∨ k = len - i - 1 then buffer[len - 1 - k]? else buffer[k]? := by
  have hlo : i < buffer.length := by omega
  have hhi : len - i - 1 < buffer.length := by omega
  rw [List.getElem?_set, List.getElem?_set, List.length_set]
  by_cases hk : len - i - 1 = k
  · have hback : len - 1 - k = i := by omega
    rw [if_pos hk, if_pos hhi, if_pos (.inr hk.symm), hback, List.getD_eq_getElem?_getD,
      List.getElem?_eq_getElem hlo, Option.getD_some]
  · rw [if_neg hk]
    by_cases hki : i = k
    · have hback : len - 1 - k = len - i - 1 := by omega
      rw [if_pos hki, if_pos hlo, if_pos (.inl hki.symm), hback, List.getD_eq_getElem?_getD,
        List.getElem?_eq_getElem hhi, Option.getD_some]
    · rw [if_neg hki, if_neg (by omega)]

/-- Behind some rounds the outermost characters are swapped, and the others are as they were. -/
theorem getElem?_swapLoop : ∀ (rounds i : Nat) (buffer : List UInt8), buffer.length = len →
    i + rounds ≤ len / 2 → ∀ k, (swapLoop len rounds i buffer)[k]? =
      if (i ≤ k ∧ k < i + rounds) ∨ (len - (i + rounds) ≤ k ∧ k < len - i) then
        buffer[len - 1 - k]? else buffer[k]? := by
  intro rounds
  induction rounds with
  | zero =>
    intro i buffer _ _ k
    rw [if_neg (by omega)]
    rfl
  | succ rounds ih =>
    intro i buffer hlen hi k
    have hswap := getElem?_swap (i := i) hlen (by omega)
    unfold swapLoop
    rw [ih (i + 1) _ (by rw [List.length_set, List.length_set]; exact hlen) (by omega), hswap, hswap]
    by_cases hin : (i + 1 ≤ k ∧ k < i + 1 + rounds) ∨
        (len - (i + 1 + rounds) ≤ k ∧ k < len - (i + 1))
    · have hinner : ¬(len - 1 - k = i ∨ len - 1 - k = len - i - 1) := by omega
      have hout : (i ≤ k ∧ k < i + (rounds + 1)) ∨ (len - (i + (rounds + 1)) ≤ k ∧ k < len - i) := by
        omega
      rw [if_pos hin, if_neg hinner, if_pos hout]
    · by_cases hends : k = i ∨ k = len - i - 1
      · have hout : (i ≤ k ∧ k < i + (rounds + 1)) ∨
            (len - (i + (rounds + 1)) ≤ k ∧ k < len - i) := by omega
        rw [if_neg hin, if_pos hends, if_pos hout]
      · have hout : ¬((i ≤ k ∧ k < i + (rounds + 1)) ∨
            (len - (i + (rounds + 1)) ≤ k ∧ k < len - i)) := by omega
        rw [if_neg hin, if_neg hends, if_neg hout]

/-- The swaps reverse the buffer. -/
theorem swapLoop_eq_reverse (buffer : List UInt8) :
    swapLoop buffer.length (buffer.length / 2) 0 buffer = buffer.reverse := by
  refine List.ext_getElem? fun k => ?_
  rw [getElem?_swapLoop _ _ _ rfl (by omega)]
  by_cases hk : k < buffer.length
  · rw [List.getElem?_reverse hk]
    by_cases hin : (0 ≤ k ∧ k < 0 + buffer.length / 2) ∨
        (buffer.length - (0 + buffer.length / 2) ≤ k ∧ k < buffer.length - 0)
    · rw [if_pos hin]
    · -- the one in the middle
      have hmid : buffer.length - 1 - k = k := by omega
      rw [if_neg hin, hmid]
  · rw [if_neg (by omega), List.getElem?_eq_none (by omega),
      List.getElem?_eq_none (by rw [List.length_reverse]; omega)]

end Swap

/-! ## Numerals -/

/-- The sign of a number. -/
def sign (unsig : Bool) (value : Int) : List UInt8 :=
  if value < 0 && !unsig then ['-'.toUInt8] else []

/-- The numeral of a number with its sign. -/
def numeralText (radix : Nat) (uppercase unsig : Bool) (width : Nat) (value : Int) : List UInt8 :=
  sign unsig value ++ chars uppercase (numeral radix width (magnitude unsig value))

theorem digitChar_zero (uppercase : Bool) : digitChar uppercase 0 = '0'.toUInt8 := by
  cases uppercase <;> rfl

/-- A numeral is its digits, padded and reversed. -/
theorem chars_numeral (radix width n : Nat) (uppercase : Bool) :
    chars uppercase (numeral radix width n) =
      ((chars uppercase (lowFirst radix n)).rightpad width '0'.toUInt8).reverse := by
  unfold numeral chars List.rightpad
  rw [List.map_reverse, List.map_append, List.map_replicate, List.length_map]
  exact congrArg (fun c => (_ ++ List.replicate _ c).reverse) (digitChar_zero uppercase)

/-- **`mini_itoa` prints numerals**, as long as they fit into its buffer. -/
theorem miniItoa_spec {f : Copy} {radix width : Nat} {uppercase unsig : Bool} {value : Int}
    (hradix : 1 < radix) (hmax : radix ≤ 16) (hfit : FitsLong value) (hcov : f.Covers unsig value) :
    miniItoa f value radix uppercase unsig width =
      if (numeralText radix uppercase unsig width value).length < 24 then
        .ok (numeralText radix uppercase unsig width value)
      else .error .overrun := by
  have hloop := digitsLoop_spec uppercase hradix hfit hcov
  unfold startValue at hloop
  have hrev : ∀ buffer : List UInt8, buffer.reverse = numeralText radix uppercase unsig width value →
      (if buffer.length < 24 then
        Except.ok (swapLoop buffer.length (buffer.length / 2) 0 buffer) else .error .overrun) =
      if (numeralText radix uppercase unsig width value).length < 24 then
        .ok (numeralText radix uppercase unsig width value) else .error Fault.overrun := by
    intro buffer hbuf
    rw [swapLoop_eq_reverse, ← hbuf, List.length_reverse]
  unfold miniItoa
  rw [if_neg (by omega)]
  simp only [hloop]
  refine hrev _ ?_
  unfold numeralText sign
  rw [chars_numeral]
  by_cases hneg : (value < 0 && !unsig) = true
  · simp only [hneg, if_true, List.reverse_append, List.reverse_singleton]
  · simp only [hneg, Bool.false_eq_true, if_false, List.nil_append]

end Print
