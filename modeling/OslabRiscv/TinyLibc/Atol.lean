import Mathlib.Data.Nat.Digits.Lemmas
import Mathlib.Tactic

/-!
# Reading numbers

`atol` of `atoi.c`: white space, a sign, a base, digits.  The loop over the white space does not
move on, so `atol` does not return where there is any; everywhere else it reads numerals and
gives zero for the rest (`atol_meets_iff`).

A string is given as what is in memory from its address on; where the list ends is a NUL.
-/

namespace TinyLibc

/-! ## The code -/

def isdigit (ch : UInt8) : Bool := '0'.toUInt8 ≤ ch && ch ≤ '9'.toUInt8

def isxdigit (ch : UInt8) : Bool :=
  isdigit ch || ('a'.toUInt8 ≤ ch && ch ≤ 'f'.toUInt8) || ('A'.toUInt8 ≤ ch && ch ≤ 'F'.toUInt8)

/-- The blank, and `\t`, `\n`, `\v`, `\f` and `\r`. -/
def isspace (ch : UInt8) : Bool :=
  ch = ' '.toUInt8 || ch = 9 || ch = 10 || ch = 11 || ch = 12 || ch = 13

/-- What is left of a `long` that overflows. -/
def long (x : Int) : Int := x.bmod (2 ^ 64)

/-- `while (isspace(*str)) ;`, for at most so many rounds. -/
def skipBlanks : Nat → List UInt8 → Option (List UInt8)
  | 0, _ => none
  | _ + 1, [] => some []
  | rounds + 1, c :: str => if isspace c then skipBlanks rounds (c :: str) else some (c :: str)

/-- The sign: whether it is a minus, with what is behind it.  `none` is a `return 0`. -/
def takeSign : List UInt8 → Option (Bool × List UInt8)
  | [] => none
  | c :: str =>
    if c = '+'.toUInt8 then some (false, str)
    else if c = '-'.toUInt8 then some (true, str)
    else if isdigit c then some (false, c :: str)
    else none

/-- The base, with what is behind `0x` or `0X`. -/
def takeBase : List UInt8 → Int × List UInt8
  | c :: d :: str =>
    if (c = '0'.toUInt8 ∧ d = 'x'.toUInt8) ∨ (c = '0'.toUInt8 ∧ d = 'X'.toUInt8) then (16, str)
    else (10, c :: d :: str)
  | str => (10, str)

/-- The loop over the digits.  `none` is a `return 0`. -/
def convert (base : Int) : List UInt8 → Int → Option Int
  | [], ret => some ret
  | c :: str, ret =>
    if c = 0 then some ret
    else if isdigit c then convert base str (long (ret * base + (c.toNat - 48)))
    else if base = 16 then
      if 'a'.toUInt8 ≤ c ∧ c ≤ 'f'.toUInt8 then
        convert base str (long (ret * base + (c.toNat - 97 + 10)))
      else if 'A'.toUInt8 ≤ c ∧ c ≤ 'F'.toUInt8 then
        convert base str (long (ret * base + (c.toNat - 65 + 10)))
      else none
    else none

/-- `atol` behind its first loop. -/
def atolAt (str : List UInt8) : Int :=
  match takeSign str with
  | none => 0
  | some (negative, str) =>
    let (base, str) := takeBase str
    match convert base str 0 with
    | none => 0
    | some ret => if negative then long (-ret) else ret

/-- `atol`, whose first loop may take so many rounds; no string is a null pointer. -/
def atol (rounds : Nat) : Option (List UInt8) → Option Int
  | none => some 0
  | some str => (skipBlanks rounds str).map atolAt

/-! ## What it is for -/

/-- The value of a digit. -/
def digitVal (c : UInt8) : Nat :=
  if isdigit c then c.toNat - 48
  else if 'a'.toUInt8 ≤ c then c.toNat - 97 + 10
  else c.toNat - 65 + 10

/-- The value of digits, the first one being the highest. -/
def digitsVal (base : Nat) (ds : List UInt8) : Nat := Nat.ofDigits base (ds.map digitVal).reverse

/-- The part behind the sign. -/
inductive Unsigned : List UInt8 → Nat → Prop
  | decimal {ds : List UInt8} : ds ≠ [] → (∀ c ∈ ds, isdigit c) → Unsigned ds (digitsVal 10 ds)
  | hex {x : UInt8} {ds : List UInt8} : x = 'x'.toUInt8 ∨ x = 'X'.toUInt8 → ds ≠ [] →
      (∀ c ∈ ds, isxdigit c) → Unsigned ('0'.toUInt8 :: x :: ds) (digitsVal 16 ds)

/-- White space, a sign or none, and digits. -/
inductive Numeral : List UInt8 → Int → Prop
  | space {c : UInt8} {str : List UInt8} {v : Int} :
      isspace c → Numeral str v → Numeral (c :: str) v
  | plus {str : List UInt8} {n : Nat} : Unsigned str n → Numeral ('+'.toUInt8 :: str) n
  | minus {str : List UInt8} {n : Nat} : Unsigned str n → Numeral ('-'.toUInt8 :: str) (-n)
  | bare {str : List UInt8} {n : Nat} : Unsigned str n → Numeral str n

def FitsLong (v : Int) : Prop := -2 ^ 63 ≤ v ∧ v < 2 ^ 63

/-- `atol` ends, and `r` is what it returns. -/
def Returns (str : List UInt8) (r : Int) : Prop := ∃ rounds, atol rounds (some str) = some r

/-- `atol` ends, gives each numeral its value, and everything else zero. -/
structure AtolMeets (str : List UInt8) : Prop where
  ends : ∃ r, Returns str r
  value : ∀ v, Numeral str v → FitsLong v → Returns str v
  zero : (∀ v, ¬ Numeral str v) → Returns str 0

/-- The string starts with white space. -/
def StartsBlank : List UInt8 → Bool
  | [] => false
  | c :: _ => isspace c

/-! ## The first loop -/

section Blanks

variable {str : List UInt8} {r : Int}

/-- On a string `atol` skips the blanks and converts the rest. -/
theorem atol_some (rounds : Nat) (str : List UInt8) :
    atol rounds (some str) = (skipBlanks rounds str).map atolAt := rfl

/-- On a blank the first loop takes all its rounds. -/
theorem skipBlanks_stuck (h : StartsBlank str) (rounds : Nat) : skipBlanks rounds str = none := by
  induction rounds with
  | zero => rfl
  | succ rounds ih =>
      cases str with
      | nil => cases h
      | cons c cs =>
          have hc : isspace c = true := h
          unfold skipBlanks
          rw [if_pos hc]
          exact ih

/-- Without a blank it takes one. -/
theorem skipBlanks_done (h : StartsBlank str = false) (rounds : Nat) :
    skipBlanks (rounds + 1) str = some str := by
  cases str with
  | nil => rfl
  | cons c cs =>
      have hc : ¬ isspace c = true := by
        rw [Bool.not_eq_true]
        exact h
      unfold skipBlanks
      exact if_neg hc

/-- Without a blank `atol` ends. -/
theorem returns_iff (h : StartsBlank str = false) : Returns str r ↔ atolAt str = r := by
  constructor
  · rintro ⟨rounds, hr⟩
    cases rounds with
    | zero => cases hr
    | succ rounds =>
        rw [atol_some, skipBlanks_done h] at hr
        exact Option.some.inj hr
  · intro hr
    refine ⟨1, ?_⟩
    rw [atol_some, skipBlanks_done h, Option.map_some, hr]

end Blanks

/-! ## The digits -/

section Digits

variable {base : Nat} {c : UInt8} {ds : List UInt8}

/-- An overflow may be cut off in each round or at the end. -/
theorem long_step (x d : Int) (base : Nat) : long (long x * base + d) = long (x * base + d) := by
  unfold long
  rw [← Int.bmod_add_bmod, Int.bmod_mul_bmod, Int.bmod_add_bmod]

/-- One digit more at the end. -/
theorem digitsVal_append (base : Nat) (ds : List UInt8) (c : UInt8) :
    digitsVal base (ds ++ [c]) = digitsVal base ds * base + digitVal c := by
  unfold digitsVal
  rw [List.map_append, List.reverse_append, List.map_singleton, List.reverse_singleton,
    List.singleton_append, Nat.ofDigits_cons, Nat.add_comm, Nat.mul_comm]

/-- Whether the loop takes the digit in the base. -/
def DigitOf (base : Nat) (c : UInt8) : Prop := isdigit c ∨ base = 16 ∧ isxdigit c

/-- The hexadecimal digits. -/
theorem isxdigit_iff : isxdigit c = true ↔ isdigit c = true ∨
    ('a'.toUInt8 ≤ c ∧ c ≤ 'f'.toUInt8) ∨ ('A'.toUInt8 ≤ c ∧ c ≤ 'F'.toUInt8) := by
  unfold isxdigit
  simp only [Bool.or_eq_true, Bool.and_eq_true, decide_eq_true_eq, or_assoc]

/-- An upper-case letter is not a lower-case one. -/
theorem not_lower_of_upper (h : c ≤ 'F'.toUInt8) : ¬ 'a'.toUInt8 ≤ c := fun hlo =>
  absurd (UInt8.le_trans hlo h) (by decide)

/-- Characters are compared by their codes. -/
theorem le_toNat_of_le {a : UInt8} (h : a ≤ c) : a.toNat ≤ c.toNat := UInt8.le_iff_toNat_le.mp h

/-- The value of a decimal digit. -/
theorem digitVal_decimal (h : isdigit c = true) : (digitVal c : Int) = c.toNat - 48 := by
  have hlo : 48 ≤ c.toNat := by
    have hand := h
    unfold isdigit at hand
    rw [Bool.and_eq_true, decide_eq_true_eq] at hand
    exact le_toNat_of_le hand.1
  unfold digitVal
  rw [if_pos h, Nat.cast_sub hlo, Nat.cast_ofNat]

/-- The value of a lower-case digit. -/
theorem digitVal_lower (h : ¬ isdigit c = true) (hlower : 'a'.toUInt8 ≤ c) :
    (digitVal c : Int) = c.toNat - 97 + 10 := by
  have hlo : 97 ≤ c.toNat := le_toNat_of_le hlower
  unfold digitVal
  rw [if_neg h, if_pos hlower, Nat.cast_add, Nat.cast_sub hlo, Nat.cast_ofNat, Nat.cast_ofNat]

/-- The value of an upper-case digit. -/
theorem digitVal_upper (h : ¬ isdigit c = true) (hupper : 'A'.toUInt8 ≤ c ∧ c ≤ 'F'.toUInt8) :
    (digitVal c : Int) = c.toNat - 65 + 10 := by
  have hlo : 65 ≤ c.toNat := le_toNat_of_le hupper.1
  unfold digitVal
  rw [if_neg h, if_neg (not_lower_of_upper hupper.2), Nat.cast_add, Nat.cast_sub hlo,
    Nat.cast_ofNat, Nat.cast_ofNat]

/-- One round of the loop. -/
theorem convert_digit (hc : c ≠ 0) (h : DigitOf base c) (str : List UInt8) (ret : Int) :
    convert base (c :: str) ret = convert base str (long (ret * base + digitVal c)) := by
  rw [convert, if_neg hc]
  by_cases hd : isdigit c = true
  · rw [if_pos hd, digitVal_decimal hd]
  · obtain ⟨hbase, hx⟩ := h.resolve_left hd
    have hbase' : (base : Int) = 16 := by exact_mod_cast hbase
    rw [if_neg hd, if_pos hbase']
    rcases (isxdigit_iff.mp hx).resolve_left hd with hlower | hupper
    · rw [if_pos hlower, digitVal_lower hd hlower.1]
    · rw [if_neg fun h => not_lower_of_upper hupper.2 h.1, if_pos hupper, digitVal_upper hd hupper]

theorem convert_other (hc : c ≠ 0) (h : ¬ DigitOf base c) (str : List UInt8) (ret : Int) :
    convert base (c :: str) ret = none := by
  unfold convert
  have hd : ¬ isdigit c = true := fun hd => h (.inl hd)
  rw [if_neg hc, if_neg hd]
  by_cases hbase : (base : Int) = 16
  · have hx : ¬ isxdigit c = true := fun hx => h (.inr ⟨by exact_mod_cast hbase, hx⟩)
    rw [isxdigit_iff, not_or, not_or] at hx
    rw [if_pos hbase, if_neg hx.2.1, if_neg hx.2.2]
  · rw [if_neg hbase]

/-- Digits only: the loop ends with their value, as far as a `long` holds it. -/
theorem convert_digits (base : Nat) : ∀ (ds done : List UInt8), 0 ∉ ds →
    (∀ c ∈ ds, DigitOf base c) →
    convert base ds (long (digitsVal base done)) = some (long (digitsVal base (done ++ ds))) := by
  intro ds
  induction ds with
  | nil =>
      intro done _ _
      rw [List.append_nil]
      rfl
  | cons c ds ih =>
      intro done hnul hall
      have hc : c ≠ 0 := fun h => hnul (h ▸ List.mem_cons_self)
      have hnext : long (digitsVal base done * base + digitVal c) =
          long (digitsVal base (done ++ [c])) := by
        rw [digitsVal_append]
        push_cast
        rfl
      rw [convert_digit hc (hall c List.mem_cons_self), long_step, hnext,
        ih _ (fun h => hnul (List.mem_cons_of_mem _ h))
          fun d hd => hall d (List.mem_cons_of_mem _ hd),
        List.append_assoc, List.singleton_append]

/-- The loop gives up at the first other character. -/
theorem convert_bad (base : Nat) : ∀ (str : List UInt8) (ret : Int), 0 ∉ str →
    (∃ c ∈ str, ¬ DigitOf base c) → convert base str ret = none := by
  intro str
  induction str with
  | nil =>
      rintro ret _ ⟨c, hc, _⟩
      cases hc
  | cons c str ih =>
      rintro ret hnul ⟨d, hd, hbad⟩
      have hc : c ≠ 0 := fun h => hnul (h ▸ List.mem_cons_self)
      by_cases hdig : DigitOf base c
      · rw [convert_digit hc hdig]
        refine ih _ (fun h => hnul (List.mem_cons_of_mem _ h)) ⟨d, ?_, hbad⟩
        rcases List.mem_cons.mp hd with rfl | hd
        · exact absurd hdig hbad
        · exact hd
      · exact convert_other hc hdig str ret

end Digits

/-! ## The parts of a numeral -/

section Parts

variable {str rest : List UInt8} {x : UInt8} {n : Nat} {v : Int} {negative : Bool}

/-- The loop gives digits their value. -/
theorem convert_numeral (base : Nat) {ds : List UInt8} (hnul : 0 ∉ ds)
    (hall : ∀ c ∈ ds, DigitOf base c) :
    convert base ds 0 = some (long (digitsVal base ds)) := by
  have hstart : long (digitsVal base []) = 0 := Int.zero_bmod
  have hrun := convert_digits base ds [] hnul hall
  rwa [hstart, List.nil_append] at hrun

/-- Behind `0x` the base is sixteen. -/
theorem takeBase_hex (hx : x = 'x'.toUInt8 ∨ x = 'X'.toUInt8) (ds : List UInt8) :
    takeBase ('0'.toUInt8 :: x :: ds) = (16, ds) := by
  unfold takeBase
  exact if_pos (hx.imp (fun h => ⟨rfl, h⟩) fun h => ⟨rfl, h⟩)

/-- The base is 16 exactly behind `0x` and `0X`. -/
theorem takeBase_cases (str : List UInt8) : takeBase str = (10, str) ∨
    ∃ x ds, (x = 'x'.toUInt8 ∨ x = 'X'.toUInt8) ∧ str = '0'.toUInt8 :: x :: ds := by
  match str with
  | [] => exact .inl rfl
  | [_] => exact .inl rfl
  | c :: d :: ds =>
      by_cases h : (c = '0'.toUInt8 ∧ d = 'x'.toUInt8) ∨ (c = '0'.toUInt8 ∧ d = 'X'.toUInt8)
      · rcases h with ⟨rfl, hd⟩ | ⟨rfl, hd⟩
        · exact .inr ⟨d, ds, .inl hd, rfl⟩
        · exact .inr ⟨d, ds, .inr hd, rfl⟩
      · refine .inl ?_
        unfold takeBase
        exact if_neg h

/-- An `x` is no decimal digit. -/
theorem not_isdigit_x (hx : x = 'x'.toUInt8 ∨ x = 'X'.toUInt8) : ¬ isdigit x = true := by
  rcases hx with rfl | rfl
  · decide
  · decide

/-- The part behind the sign is read with its value. -/
theorem Unsigned.convert (h : Unsigned str n) (hnul : 0 ∉ str) :
    convert (takeBase str).1 (takeBase str).2 0 = some (long n) := by
  cases h with
  | decimal hne hall =>
      rcases takeBase_cases str with hten | ⟨x, ds, hx, rfl⟩
      · rw [hten]
        exact convert_numeral 10 hnul fun c hc => .inl (hall c hc)
      · exact absurd (hall x (by simp)) (not_isdigit_x hx)
  | hex hx hne hall =>
      rw [takeBase_hex hx]
      refine convert_numeral 16 (fun h => hnul ?_) fun c hc => .inr ⟨rfl, hall c hc⟩
      exact List.mem_cons_of_mem _ (List.mem_cons_of_mem _ h)

/-- Digits are read to a part behind the sign, and nothing at all to zero. -/
theorem convert_eq_none_or_zero (base : Nat) {ds : List UInt8} (hnul : 0 ∉ ds)
    (h : ds = [] ∨ ¬ ∀ c ∈ ds, DigitOf base c) :
    convert base ds 0 = none ∨ convert base ds 0 = some 0 := by
  rcases h with rfl | h
  · exact .inr rfl
  · push Not at h
    exact .inl (convert_bad base ds 0 hnul h)

/-- Everything else is given up or read as zero. -/
theorem convert_of_not_unsigned (h : ∀ n, ¬ Unsigned str n) (hnul : 0 ∉ str) :
    convert (takeBase str).1 (takeBase str).2 0 = none ∨
      convert (takeBase str).1 (takeBase str).2 0 = some 0 := by
  rcases takeBase_cases str with hten | ⟨x, ds, hx, rfl⟩
  · rw [hten]
    refine convert_eq_none_or_zero 10 hnul ?_
    by_cases hnil : str = []
    · exact .inl hnil
    · refine .inr fun hall => h _ (.decimal hnil fun c hc => ?_)
      rcases hall c hc with hd | ⟨hcon, _⟩
      · exact hd
      · exact absurd hcon (by decide)
  · rw [takeBase_hex hx]
    refine convert_eq_none_or_zero 16
      (fun h => hnul (List.mem_cons_of_mem _ (List.mem_cons_of_mem _ h))) ?_
    by_cases hnil : ds = []
    · exact .inl hnil
    · refine .inr fun hall => h _ (.hex hx hnil fun c hc => ?_)
      rcases hall c hc with hd | ⟨_, hd⟩
      · exact isxdigit_iff.mpr (.inl hd)
      · exact hd

/-- The value with the sign. -/
def signed (negative : Bool) (n : Nat) : Int := if negative then -n else n

/-- A digit is no sign. -/
theorem isdigit_not_sign {c : UInt8} (h : isdigit c = true) :
    c ≠ '+'.toUInt8 ∧ c ≠ '-'.toUInt8 := by
  constructor
  · rintro rfl
    exact absurd h (by decide)
  · rintro rfl
    exact absurd h (by decide)

/-- The part behind the sign starts with a digit. -/
theorem Unsigned.starts_digit (h : Unsigned str n) :
    ∃ c cs, str = c :: cs ∧ isdigit c = true := by
  cases h with
  | decimal hne hall =>
      obtain ⟨c, cs, rfl⟩ := List.exists_cons_of_ne_nil hne
      exact ⟨c, cs, rfl, hall c List.mem_cons_self⟩
  | hex hx hne hall => exact ⟨_, _, rfl, by decide⟩

/-- The sign of a numeral without white space is taken off. -/
theorem Numeral.takeSign (h : Numeral str v) (hblank : StartsBlank str = false) :
    ∃ negative rest n, takeSign str = some (negative, rest) ∧ Unsigned rest n ∧
      v = signed negative n := by
  cases h with
  | space hc _ =>
      rw [StartsBlank, hc] at hblank
      cases hblank
  | plus hu => exact ⟨false, _, _, rfl, hu, rfl⟩
  | minus hu => exact ⟨true, _, _, rfl, hu, rfl⟩
  | bare hu =>
      obtain ⟨c, cs, rfl, hc⟩ := hu.starts_digit
      obtain ⟨hplus, hminus⟩ := isdigit_not_sign hc
      refine ⟨false, _, _, ?_, hu, rfl⟩
      rw [TinyLibc.takeSign, if_neg hplus, if_neg hminus, if_pos hc]

/-- Where a sign is taken off, it was there. -/
theorem takeSign_cases (h : takeSign str = some (negative, rest)) :
    (∀ c ∈ rest, c ∈ str) ∧ ∀ n, Unsigned rest n → Numeral str (signed negative n) := by
  cases str with
  | nil => cases h
  | cons c cs =>
      rw [takeSign] at h
      by_cases hplus : c = '+'.toUInt8
      · rw [if_pos hplus] at h
        cases h
        subst hplus
        exact ⟨fun d hd => List.mem_cons_of_mem _ hd, fun n hu => .plus hu⟩
      · rw [if_neg hplus] at h
        by_cases hminus : c = '-'.toUInt8
        · rw [if_pos hminus] at h
          cases h
          subst hminus
          exact ⟨fun d hd => List.mem_cons_of_mem _ hd, fun n hu => .minus hu⟩
        · rw [if_neg hminus] at h
          by_cases hd : isdigit c = true
          · rw [if_pos hd] at h
            cases h
            exact ⟨fun d hd => hd, fun n hu => .bare hu⟩
          · rw [if_neg hd] at h
            cases h

/-- A value that fits is itself. -/
theorem long_fits (h : FitsLong v) : long v = v := by
  obtain ⟨hlo, hhi⟩ := h
  have hle : -((2 ^ 64 : Nat) : Int) ≤ v * 2 := by
    push_cast
    linarith
  have hlt : v * 2 < ((2 ^ 64 : Nat) : Int) := by
    push_cast
    linarith
  exact Int.bmod_eq_of_le_mul_two hle hlt

/-- Negation may be cut off before or after. -/
theorem long_signed (negative : Bool) (n : Nat) :
    (if negative then long (-long n) else long n) = long (signed negative n) := by
  cases negative with
  | false => simp only [signed, Bool.false_eq_true, if_false]
  | true =>
      simp only [signed, if_true]
      unfold long
      rw [Int.bmod_neg_bmod]

end Parts

/-! ## Whole strings -/

section Whole

variable {str : List UInt8} {v : Int}

/-- Behind the sign come the base and the digits. -/
theorem atolAt_some {negative : Bool} {rest : List UInt8}
    (h : takeSign str = some (negative, rest)) :
    atolAt str = match convert (takeBase rest).1 (takeBase rest).2 0 with
      | none => 0
      | some ret => if negative then long (-ret) else ret := by
  unfold atolAt
  rw [h]

/-- A numeral without a blank gets its value. -/
theorem atolAt_numeral (hblank : StartsBlank str = false) (hnul : 0 ∉ str) (h : Numeral str v) :
    atolAt str = long v := by
  obtain ⟨negative, rest, n, hsign, hu, rfl⟩ := h.takeSign hblank
  have hrest : 0 ∉ rest := fun h => hnul ((takeSign_cases hsign).1 0 h)
  rw [atolAt_some hsign, hu.convert hrest]
  exact long_signed negative n

theorem atolAt_other (hnul : 0 ∉ str) (h : ∀ v, ¬ Numeral str v) : atolAt str = 0 := by
  cases hsign : takeSign str with
  | none =>
      unfold atolAt
      rw [hsign]
  | some r =>
      obtain ⟨negative, rest⟩ := r
      obtain ⟨hmem, hnum⟩ := takeSign_cases hsign
      rw [atolAt_some hsign]
      rcases convert_of_not_unsigned (fun n hu => h _ (hnum n hu))
        (fun h => hnul (hmem 0 h)) with hc | hc
      · rw [hc]
      · rw [hc]
        cases negative with
        | false => rfl
        | true => rfl

/-- **`atol` does what it should exactly on the strings that start without white space.** -/
theorem atol_meets_iff (hnul : 0 ∉ str) : AtolMeets str ↔ StartsBlank str = false := by
  constructor
  · rintro ⟨⟨r, rounds, hr⟩, _, _⟩
    by_contra hblank
    rw [atol_some, skipBlanks_stuck (Bool.not_eq_false _ ▸ hblank)] at hr
    cases hr
  · intro hblank
    exact {
      ends := ⟨atolAt str, (returns_iff hblank).mpr rfl⟩
      value := fun v hv hfits =>
        (returns_iff hblank).mpr ((atolAt_numeral hblank hnul hv).trans (long_fits hfits))
      zero := fun h => (returns_iff hblank).mpr (atolAt_other hnul h) }

/-- `-0x1F`. -/
theorem atol_meets_hex : AtolMeets [45, 48, 120, 49, 70] :=
  (atol_meets_iff (by decide)).mpr (by decide)

/-- `" 7"` is a numeral, and `atol` does not return. -/
theorem atol_blank_hangs : Numeral [32, 55] 7 ∧ ¬ ∃ r, Returns [32, 55] r := by
  have hseven : ∀ c ∈ [(55 : UInt8)], isdigit c = true := by
    intro c hc
    rw [List.mem_singleton.mp hc]
    decide
  refine ⟨.space (by decide) (.bare (.decimal (List.cons_ne_nil _ _) hseven)), ?_⟩
  rintro ⟨r, rounds, hr⟩
  rw [atol_some, skipBlanks_stuck (by decide)] at hr
  cases hr

end Whole

end TinyLibc
