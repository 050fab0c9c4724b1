import OslabRiscv.Print.Rendering

/-!
# The two copies, and reading back

The programs print with `tiny_libc/printf.c`, the kernel with `libs/printk.c`. What the first prints
is what the second prints as long as no argument has its highest bit set (`copies_agree`), and a
printed number is read again by `atol` of `tiny_libc/atoi.c` (`printed_reads_back`).
-/

namespace Print

open Assembly (Word)
open Numerals TinyLibc

/-! ## The same text -/

section Same

variable {radix : Nat} {uppercase unsig : Bool}

/-- The loop over the digits is the same for numbers below 2^63, by induction on the rounds. -/
theorem digitsLoop_copies (radix : Nat) (uppercase unsig : Bool) : ∀ (rounds n : Nat), n < 2 ^ 63 →
    digitsLoop .printf radix uppercase unsig rounds (n : Int) =
      digitsLoop .printk radix uppercase unsig rounds (n : Int) := by
  intro rounds
  induction rounds with
  | zero => exact fun _ _ => rfl
  | succ rounds ih =>
    intro n hn
    have hdiv := ih (n / radix) (lt_of_le_of_lt (Nat.div_le_self n radix) hn)
    simp only [digitsLoop, round_nat _ unsig radix hn, more_nat, hdiv]

/-- `mini_itoa` is the same for such numbers. -/
theorem miniItoa_copies (radix : Nat) (uppercase unsig : Bool) {value : Int} (hlo : 0 ≤ value)
    (hhi : value < 2 ^ 63) (zeroPad : Nat) :
    miniItoa .printf value radix uppercase unsig zeroPad =
      miniItoa .printk value radix uppercase unsig zeroPad := by
  obtain ⟨n, rfl⟩ := Int.eq_ofNat_of_zero_le hlo
  have hneg : (decide ((n : Int) < 0) && !unsig) = false := by simp
  have hloop := digitsLoop_copies radix uppercase unsig 64 n
    (by omega)
  unfold miniItoa
  simp only [hneg, Bool.false_eq_true, if_false, hloop]

end Same

/-! ## The same formats -/

section Formats

variable {str : Word → List UInt8} {va va' : List Word} {b b' : MiniBuff}

/-- No argument has its highest bit set. -/
def Small (va : List Word) : Prop := ∀ w ∈ va, w.toNat < 2 ^ 63

/-- An argument without its highest bit is such a number. -/
theorem intArg_nonneg {w : Word} (hw : w.toNat < 2 ^ 63) (longflag : Bool) :
    0 ≤ intArg longflag w ∧ intArg longflag w < 2 ^ 63 := by
  unfold intArg
  cases longflag with
  | true =>
    rw [if_pos rfl, BitVec.toInt_eq_toNat_of_lt (by omega)]
    omega
  | false =>
    rw [if_neg (by decide)]
    omega

/-- A number is put the same by both. -/
theorem putInt_copies {longflag : Bool} {radix : Nat} {uppercase unsig : Bool} {zeroPad : UInt8}
    (hva : Small va) : putInt .printf longflag radix uppercase unsig zeroPad va b =
      putInt .printk longflag radix uppercase unsig zeroPad va b := by
  cases va with
  | nil => rfl
  | cons w va =>
    obtain ⟨hlo, hhi⟩ := intArg_nonneg (hva w List.mem_cons_self) longflag
    have hitoa := miniItoa_copies radix uppercase unsig hlo hhi
      zeroPad.toNat
    change (miniItoa .printf _ _ _ _ _ >>= _) = (miniItoa .printk _ _ _ _ _ >>= _)
    rw [hitoa]

/-- A conversion is the same in both. -/
theorem conversion_copies {longflag : Bool} {zeroPad ch : UInt8} (hva : Small va) :
    conversion .printf str longflag zeroPad ch va b =
      conversion .printk str longflag zeroPad ch va b := by
  unfold conversion
  simp only [putInt_copies hva]

/-- What is left of small arguments is small. -/
theorem vaArg_small {w : Word} (hva : Small va) (h : vaArg va = .ok (w, va')) : Small va' := by
  cases va with
  | nil => cases h
  | cons v va =>
    cases h
    exact fun u hu => hva u (List.mem_cons_of_mem _ hu)

/-- The arguments that are left are some of those there were. -/
theorem putInt_small {f : Copy} {longflag : Bool} {radix : Nat} {uppercase unsig : Bool}
    {zeroPad : UInt8} (hva : Small va)
    (h : putInt f longflag radix uppercase unsig zeroPad va b = .ok (va', b')) : Small va' := by
  unfold putInt at h
  cases harg : vaArg va with
  | error e =>
    rw [harg] at h
    cases h
  | ok r =>
    rw [harg] at h
    cases hitoa : miniItoa f (intArg longflag r.1) radix uppercase unsig zeroPad.toNat with
    | error e =>
      change (miniItoa _ _ _ _ _ _ >>= _) = _ at h
      rw [hitoa] at h
      cases h
    | ok bf =>
      change (miniItoa _ _ _ _ _ _ >>= _) = _ at h
      rw [hitoa] at h
      cases h
      exact vaArg_small hva harg

/-- The same behind a conversion. -/
theorem conversion_small {f : Copy} {longflag : Bool} {zeroPad ch : UInt8} (hva : Small va)
    (h : conversion f str longflag zeroPad ch va b = .ok (va', b')) : Small va' := by
  unfold conversion at h
  have harg : ∀ g : Word → MiniBuff,
      (vaArg va >>= fun r => Except.ok (r.2, g r.1)) = .ok (va', b') → Small va' := by
    intro g hg
    cases hr : vaArg va with
    | error e =>
      rw [hr] at hg
      cases hg
    | ok r =>
      rw [hr] at hg
      cases hg
      exact vaArg_small hva hr
  split_ifs at h with hl hu hx hc hs
  · cases h
    exact hva
  · exact putInt_small hva h
  · exact putInt_small hva h
  · exact harg (fun w => putc (UInt8.ofNat w.toNat) b) h
  · exact harg (fun w => puts (str w) (Screen.strlen (str w)) b) h
  · cases h
    exact hva

/-- One round of the loop over the format. -/
theorem formatLoop_succ (f : Copy) (rounds : Nat) (fmt : List UInt8) :
    formatLoop f str (rounds + 1) fmt va b =
      if (next fmt).1 = 0 then .ok b
      else if b.bufferLen ≤ b.text.length + 1 then .ok b
      else if (next fmt).1 ≠ '%'.toUInt8 then
        formatLoop f str rounds (next fmt).2 va (putc (next fmt).1 b)
      else if (readFlags (next fmt).2).2.2.1 = 0 then .ok b
      else conversion f str (readFlags (next fmt).2).2.1 (readFlags (next fmt).2).1
        (readFlags (next fmt).2).2.2.1 va b >>= fun r =>
          formatLoop f str rounds (readFlags (next fmt).2).2.2.2 r.1 r.2 := rfl

/-- Behind an error nothing is done. -/
theorem error_bind {α β : Type} (e : Fault) (g g' : α → Except Fault β) :
    (Except.error e >>= g) = (Except.error e >>= g') := rfl

/-- The loop over the format is the same, by induction on the rounds. -/
theorem formatLoop_copies : ∀ (rounds : Nat) (fmt : List UInt8) (va : List Word) (b : MiniBuff),
    Small va → formatLoop .printf str rounds fmt va b = formatLoop .printk str rounds fmt va b := by
  intro rounds
  induction rounds with
  | zero => exact fun _ _ _ _ => rfl
  | succ rounds ih =>
    intro fmt va b hva
    have hrest : ∀ (long : Bool) (zeroPad ch : UInt8) (fmt : List UInt8),
        (conversion .printk str long zeroPad ch va b >>= fun r =>
          formatLoop .printf str rounds fmt r.1 r.2) =
        (conversion .printk str long zeroPad ch va b >>= fun r =>
          formatLoop .printk str rounds fmt r.1 r.2) := by
      intro long zeroPad ch fmt
      cases hconv : conversion .printk str long zeroPad ch va b with
      | error e => exact error_bind e _ _
      | ok r => exact ih fmt r.1 r.2 (conversion_small hva hconv)
    rw [formatLoop_succ, formatLoop_succ, conversion_copies hva, ih _ va _ hva, hrest]

end Formats

/-! ## A single directive -/

section Single

variable {f : Copy} {str : Word → List UInt8} {flags : Flags} {ch : UInt8} {radix n : Nat}
  {uppercase unsig : Bool} {w : Word}

/-- The width is one byte. -/
theorem Flags.zeros_lt (flags : Flags) : flags.zeros < 256 := by
  unfold Flags.zeros
  cases flags.width with
  | none => decide
  | some ds => exact Nat.mod_lt _ (by decide)

/-- A format that is one integer directive. -/
theorem miniVsnprintf_int (hconv : intConv ch = some (radix, uppercase, unsig)) (hch : ch ≠ 0)
    (hbefore : flags.Before ch) (hn : 1 < n) :
    miniVsnprintf f str n (Piece.directive flags ch).bytes [w] =
      (miniItoa f (intArg flags.long w) radix uppercase unsig flags.zeros).map (·.take (n - 1)) := by
  have hread := readFlags_bytes [] hch hbefore
  have hzeros : (UInt8.ofNat flags.zeros).toNat = flags.zeros := by
    rw [UInt8.toNat_ofNat']
    exact Nat.mod_eq_of_lt flags.zeros_lt
  have hfull : ¬n ≤ ([] : List UInt8).length + 1 := by
    rw [List.length_nil]
    omega
  have hloop : ∀ rounds, formatLoop f str (rounds + 1) (Piece.directive flags ch).bytes [w] ⟨[], n⟩ =
      (putInt f flags.long radix uppercase unsig (UInt8.ofNat flags.zeros) [w] ⟨[], n⟩ >>= fun r =>
        formatLoop f str rounds [] r.1 r.2) := by
    intro rounds
    have hpercent : (next (Piece.directive flags ch).bytes).1 = '%'.toUInt8 := rfl
    have hrest : (next (Piece.directive flags ch).bytes).2 = flags.bytes ++ [ch] := rfl
    rw [formatLoop_succ, hpercent, hrest, hread, if_neg (by decide), if_neg hfull,
      if_neg (not_not_intro rfl), if_neg hch, (conversion_int hconv).1]
  obtain ⟨rounds, hrounds⟩ : ∃ rounds, (Piece.directive flags ch).bytes.length = rounds + 1 :=
    ⟨_, rfl⟩
  unfold miniVsnprintf
  rw [hrounds, hloop]
  change Except.map MiniBuff.text ((miniItoa f (intArg flags.long w) radix uppercase unsig
    (UInt8.ofNat flags.zeros).toNat >>= _) >>= _) = _
  rw [hzeros]
  cases hitoa : miniItoa f (intArg flags.long w) radix uppercase unsig flags.zeros with
  | error e => rfl
  | ok bf =>
    have hputs := puts_eq bf bf.length (by omega : ([] : List UInt8).length + 1 < n)
    rw [List.take_length, List.nil_append] at hputs
    change Except.map MiniBuff.text (formatLoop f str (rounds + 1) [] [] (puts bf bf.length ⟨[], n⟩)) = _
    rw [hputs]
    rfl

/-- The loop of `printf.c` stops behind the first digit of a negative value. -/
theorem miniItoa_printf_negative {value : Int} (hneg : value < 0) (hmax : radix ≤ 16) :
    miniItoa .printf value radix uppercase true 0 = .ok [digitChar uppercase (value.tmod radix)] := by
  have hmore : Copy.printf.more (value.tdiv radix) = false := by
    have hle : 0 ≤ (-value).tdiv radix := Int.tdiv_nonneg (by omega) (by omega)
    rw [Int.neg_tdiv] at hle
    simp only [Copy.more, decide_eq_false_iff_not]
    omega
  unfold miniItoa
  rw [if_neg (by omega)]
  simp only [Bool.not_true, Bool.and_false, Bool.false_eq_true, if_false, digitsLoop, Copy.round,
    hmore]
  generalize digitChar uppercase (value.tmod radix) = c
  have hpad : [c].rightpad 0 '0'.toUInt8 = [c] := List.append_nil [c]
  simp only [bind, Except.bind, hpad, swapLoop_eq_reverse]
  exact if_pos (by simp)

/-- A number from `2 ^ 63` on has more than one digit, and fits into the buffer. -/
theorem length_numeral_big {m : Nat} (hradix : radix = 10 ∨ radix = 16) (hlo : 2 ^ 63 ≤ m)
    (hhi : m < 2 ^ 64) : 2 ≤ (numeral radix 0 m).length ∧ (numeral radix 0 m).length < 24 := by
  have hb : 1 < radix := by omega
  have hle : radix ≤ m := by omega
  have hpow : (2 : Nat) ^ 64 ≤ radix ^ 20 := by
    rcases hradix with rfl | rfl <;> norm_num
  have hlen := length_lowFirst_le hb (by decide) (lt_of_lt_of_le hhi hpow)
  have hstep := congrArg List.length (lowFirst_step hb hle)
  have hpos := List.length_pos_iff.mpr (lowFirst_ne_nil (b := radix) (n := m / radix))
  rw [List.length_cons] at hstep
  rw [length_numeral]
  omega

/-- From 2^63 on an unsigned conversion gives two texts. -/
theorem copies_differ (hconv : intConv ch = some (radix, uppercase, true)) (hn : 2 < n)
    (hw : 2 ^ 63 ≤ w.toNat) :
    miniVsnprintf .printf str n (Piece.directive ⟨none, true⟩ ch).bytes [w] ≠
      miniVsnprintf .printk str n (Piece.directive ⟨none, true⟩ ch).bytes [w] := by
  have hlt := w.isLt
  have hradix : radix = 10 ∨ radix = 16 := by
    unfold intConv at hconv
    split_ifs at hconv <;> simp_all
  have hch : ch ≠ 0 := by
    rintro rfl
    have hnone : intConv 0 = none := by decide
    rw [hnone] at hconv
    cases hconv
  have hbefore : (Flags.mk none true).Before ch := by
    refine ⟨?_, ?_, ?_, ?_⟩
    · intro _ h
      cases h
    · intro _ h
      cases h
    · intro h
      exact absurd rfl h
    · intro h
      cases h
  have hint : intArg true w = w.toInt := rfl
  have hneg : w.toInt < 0 := by
    rw [BitVec.toInt_eq_toNat_cond]
    split <;> omega
  have hmag : magnitude true w.toInt = w.toNat := by
    unfold magnitude
    rw [if_pos rfl, BitVec.toInt_eq_toNat_cond]
    split <;> omega
  have hlen := length_numeral_big hradix hw hlt
  have htext : (numeralText radix uppercase true 0 w.toInt).length = (numeral radix 0 w.toNat).length := by
    unfold numeralText sign chars
    rw [hmag]
    simp
  have hcov : Copy.printk.Covers true (intArg true w) := Or.inl rfl
  have hk : miniItoa .printk w.toInt radix uppercase true 0 = .ok _ :=
    (miniItoa_spec (by omega) (by omega) (intArg_fits true w) hcov).trans
      (if_pos (by rw [hint, htext]; exact hlen.2))
  rw [miniVsnprintf_int hconv hch hbefore (by omega), miniVsnprintf_int hconv hch hbefore (by omega)]
  change Except.map _ (miniItoa .printf w.toInt radix uppercase true 0) ≠
    Except.map _ (miniItoa .printk w.toInt radix uppercase true 0)
  rw [miniItoa_printf_negative hneg (by omega), hk]
  intro heq
  have hlens := congrArg List.length (Except.ok.inj heq)
  rw [List.length_take, List.length_take, List.length_singleton, hint, htext] at hlens
  omega

end Single

/-- **The two copies.**  With arguments below `2 ^ 63` they do the same for every format, faults
included; an `unsigned long` from there on is printed by `printf.c` as something else. -/
theorem copies_agree (str : Word → List UInt8) :
    (∀ n fmt va, (∀ w ∈ va, w.toNat < 2 ^ 63) →
      miniVsnprintf .printf str n fmt va = miniVsnprintf .printk str n fmt va) ∧
    ∀ n (w : Word), 2 < n → 2 ^ 63 ≤ w.toNat → ∀ ch ∈ ['u'.toUInt8, 'x'.toUInt8, 'X'.toUInt8],
      miniVsnprintf .printf str n ['%'.toUInt8, 'l'.toUInt8, ch] [w] ≠
        miniVsnprintf .printk str n ['%'.toUInt8, 'l'.toUInt8, ch] [w] := by
  constructor
  · intro n fmt va hva
    unfold miniVsnprintf
    rw [formatLoop_copies _ fmt va _ hva]
  · intro n w hn hw ch hch
    obtain ⟨radix, uppercase, hconv⟩ : ∃ radix uppercase, intConv ch = some (radix, uppercase, true) := by
      fin_cases hch
      · exact ⟨10, false, rfl⟩
      · exact ⟨16, false, rfl⟩
      · exact ⟨16, true, rfl⟩
    exact copies_differ hconv hn hw

/-! ## Reading back -/

section ReadBack

variable {f : Copy} {str : Word → List UInt8} {flags : Flags} {w : Word}

/-- The characters of digits are read as the number. -/
theorem digitsVal_chars {uppercase : Bool} {b : Nat} {ds : List Nat} (hds : ∀ d ∈ ds, d < 16) :
    digitsVal b (chars uppercase ds) = value b ds := by
  have hmap : (chars uppercase ds).map digitVal = ds := by
    unfold chars
    rw [List.map_map]
    refine (List.map_congr_left fun d hd => ?_).trans (List.map_id ds)
    exact digitVal_digitChar uppercase (hds d hd)
  unfold digitsVal value
  rw [hmap]

/-- A numeral has the value it was made from. -/
theorem digitsVal_numeral (uppercase : Bool) (width n : Nat) {b : Nat} (hb : 1 < b) (hmax : b ≤ 16) :
    digitsVal b (chars uppercase (numeral b width n)) = n := by
  rw [digitsVal_chars fun d hd => by have := lt_of_mem_numeral hb hd; omega, value_numeral]

theorem chars_ne_nil {uppercase : Bool} {b width n : Nat} :
    chars uppercase (numeral b width n) ≠ [] :=
  fun h => numeral_ne_nil (List.map_eq_nil_iff.mp h)

/-- A numeral in base ten is the unsigned part of one. -/
theorem unsigned_decimal (width n : Nat) : Unsigned (chars false (numeral 10 width n)) n := by
  have hval := digitsVal_numeral false width n (by decide : 1 < 10) (by decide)
  have hdigits : ∀ c ∈ chars false (numeral 10 width n), isdigit c = true := by
    intro c hc
    obtain ⟨d, hd, rfl⟩ := List.mem_map.mp hc
    exact (isdigit_digitChar (lt_of_mem_numeral (by decide) hd)).1
  conv => right; rw [← hval]
  exact .decimal chars_ne_nil hdigits

/-- The digits that are printed are hexadecimal ones. -/
theorem isxdigit_digitChar (uppercase : Bool) {d : Nat} (h : d < 16) :
    isxdigit (digitChar uppercase d) = true := by
  revert uppercase d
  decide

/-- A numeral in base sixteen behind `0x` is the unsigned part of one. -/
theorem unsigned_hex (uppercase : Bool) (width n : Nat) :
    Unsigned ('0'.toUInt8 :: 'x'.toUInt8 :: chars uppercase (numeral 16 width n)) n := by
  have hval := digitsVal_numeral uppercase width n (by decide : 1 < 16) (by decide)
  have hdigits : ∀ c ∈ chars uppercase (numeral 16 width n), isxdigit c = true := by
    intro c hc
    obtain ⟨d, hd, rfl⟩ := List.mem_map.mp hc
    exact isxdigit_digitChar uppercase (lt_of_mem_numeral (by decide) hd)
  conv => right; rw [← hval]
  exact .hex (.inl rfl) chars_ne_nil hdigits

/-- What stands in a number's text. -/
theorem mem_chars {uppercase : Bool} {b width n : Nat} (hb : 1 < b) (hmax : b ≤ 16) :
    ∀ c ∈ chars uppercase (numeral b width n), c ≠ 0 ∧ isspace c = false := by
  intro c hc
  obtain ⟨d, hd, rfl⟩ := List.mem_map.mp hc
  have hall : ∀ uppercase : Bool, ∀ d : Nat, d < 16 →
      digitChar uppercase d ≠ 0 ∧ isspace (digitChar uppercase d) = false := by decide
  exact hall uppercase d (by have := lt_of_mem_numeral hb hd; omega)

/-- With a width below 23 a number fits into `bf`. -/
theorem length_numeralText_lt (uppercase unsig : Bool) {radix width : Nat} {value : Int}
    (hradix : 10 ≤ radix) (hwidth : width < 23) (hfit : FitsLong value) :
    (numeralText radix uppercase unsig width value).length < 24 := by
  have hpow : (2 : Nat) ^ 64 ≤ radix ^ 20 :=
    le_trans (by norm_num : (2 : Nat) ^ 64 ≤ 10 ^ 20) (Nat.pow_le_pow_left hradix 20)
  have hlen := length_lowFirst_le (by omega : 1 < radix) (by decide : 0 < 20)
    (lt_of_lt_of_le (magnitude_lt unsig hfit) hpow)
  have hsign : (sign unsig value).length ≤ 1 := by
    unfold sign
    split <;> simp
  unfold numeralText chars
  rw [List.length_append, List.length_map, length_numeral]
  omega

/-- Behind `l` any letter ends the flags. -/
theorem before_of_long (hd : flags.Digits) (hl : flags.long = true) (ch : UInt8) :
    flags.Before ch := by
  have hno : flags.long ≠ false := by
    rw [hl]
    decide
  exact ⟨hd, fun _ h => absurd h hno, fun _ h => absurd h hno, fun h => absurd h hno⟩

/-- Both sides of `toInt` are the same `long`. -/
theorem long_toNat (w : Word) : long w.toNat = w.toInt := by
  unfold long
  exact (BitVec.toInt_eq_toNat_bmod w).symm

/-- A numeral without blanks is read back. -/
theorem returns_numeral {text : List UInt8} {v : Int} (hnul : 0 ∉ text)
    (hblank : ∀ c ∈ text, isspace c = false) (h : Numeral text v) : Returns text (long v) := by
  have hstart : StartsBlank text = false := by
    cases text with
    | nil => rfl
    | cons c text => exact hblank c List.mem_cons_self
  exact (returns_iff hstart).mpr (atolAt_numeral hstart hnul h)

/-- What `%ld` prints is read back. -/
theorem reads_signed (hd : flags.Digits) (hl : flags.long = true) (hz : flags.zeros < 23)
    (hw : w.toInt ≠ -2 ^ 63) :
    ∃ text, vprint f str (Piece.directive flags 'd'.toUInt8).bytes [w] = .ok text ∧
      Returns text w.toInt := by
  have hint : intArg flags.long w = w.toInt := by rw [hl]; rfl
  have hfit := intArg_fits flags.long w
  have hcov : f.Covers false (intArg flags.long w) := by
    rw [hint]
    cases f with
    | printk => exact .inr hw
    | printf => exact hw
  have hlen := length_numeralText_lt false false (by decide : 10 ≤ 10) hz hfit
  rw [hint] at hfit hlen
  set text := numeralText 10 false false flags.zeros w.toInt with htext
  have hmem : ∀ c ∈ text, c ≠ 0 ∧ isspace c = false := by
    intro c hc
    rw [htext, numeralText, List.mem_append] at hc
    rcases hc with hc | hc
    · unfold sign at hc
      split at hc
      · rw [List.mem_singleton.mp hc]
        decide
      · cases hc
    · exact mem_chars (by decide) (by decide) c hc
  have hnul : 0 ∉ text := fun h => (hmem 0 h).1 rfl
  have hprints : Prints f str (.directive flags 'd'.toUInt8) [w] text [] := by
    rw [htext, ← hint]
    exact .int (rfl : intConv 'd'.toUInt8 = some (10, false, false)) hcov (by rw [hint]; exact hlen)
  have hr : Renders f str [.directive flags 'd'.toUInt8] [w] (text ++ []) := .cons hprints .nil
  rw [List.append_nil] at hr
  have hnumeral : Numeral text w.toInt := by
    have hu := unsigned_decimal flags.zeros (magnitude false w.toInt)
    by_cases hneg : w.toInt < 0
    · have hval : w.toInt = -((magnitude false w.toInt : Nat) : Int) := by
        change w.toInt = -((w.toInt.natAbs : Nat) : Int)
        omega
      have hsign : text = '-'.toUInt8 :: chars false (numeral 10 flags.zeros (magnitude false w.toInt)) := by
        rw [htext, numeralText, sign, if_pos (by simpa using hneg)]
        rfl
      rw [hsign]
      conv => right; rw [hval]
      exact .minus hu
    · have hval : w.toInt = ((magnitude false w.toInt : Nat) : Int) := by
        change w.toInt = ((w.toInt.natAbs : Nat) : Int)
        omega
      have hsign : text = chars false (numeral 10 flags.zeros (magnitude false w.toInt)) := by
        rw [htext, numeralText, sign, if_neg (by simpa using hneg)]
        rfl
      rw [hsign]
      conv => right; rw [hval]
      exact .bare hu
  have hreturns := returns_numeral hnul (fun c hc => (hmem c hc).2) hnumeral
  rw [long_fits hfit] at hreturns
  refine ⟨text, ?_, hreturns⟩
  have hbytes : (Piece.directive flags 'd'.toUInt8).bytes =
      formatBytes [.directive flags 'd'.toUInt8] none := by
    unfold formatBytes
    simp
  rw [hbytes]
  exact vprint_renders (fun p hp => by
    rw [List.mem_singleton.mp hp]
    exact ⟨by decide, before_of_long hd hl _⟩) hr (by omega) hnul

/-- What `0x%lx` prints is read back. -/
theorem reads_hex {ch : UInt8} (hd : flags.Digits) (hl : flags.long = true) (hz : flags.zeros < 23)
    (hch : ch = 'x'.toUInt8 ∨ ch = 'X'.toUInt8) (hcov : f.Covers true w.toInt) :
    ∃ text, vprint f str ('0'.toUInt8 :: 'x'.toUInt8 :: (Piece.directive flags ch).bytes) [w] =
      .ok text ∧ Returns text w.toInt := by
  obtain ⟨uppercase, hconv⟩ : ∃ uppercase, intConv ch = some (16, uppercase, true) := by
    rcases hch with rfl | rfl
    · exact ⟨false, rfl⟩
    · exact ⟨true, rfl⟩
  have hint : intArg flags.long w = w.toInt := by rw [hl]; rfl
  have hfit := intArg_fits flags.long w
  have hlen := length_numeralText_lt uppercase true (by decide : 10 ≤ 16) hz hfit
  have hmag : magnitude true w.toInt = w.toNat := by
    have hlt := w.isLt
    unfold magnitude
    rw [if_pos rfl, BitVec.toInt_eq_toNat_cond]
    split <;> omega
  have htext : numeralText 16 uppercase true flags.zeros (intArg flags.long w) =
      chars uppercase (numeral 16 flags.zeros w.toNat) := by
    rw [hint, numeralText, sign, if_neg (by simp), hmag]
    rfl
  set digits := chars uppercase (numeral 16 flags.zeros w.toNat) with hdigits
  have hmem : ∀ c ∈ digits, c ≠ 0 ∧ isspace c = false := mem_chars (by decide) (by decide)
  have hprints : Prints f str (.directive flags ch) [w] digits [] := by
    rw [← htext]
    exact .int hconv (by rw [hint]; exact hcov) hlen
  have hr : Renders f str [.plain '0'.toUInt8, .plain 'x'.toUInt8, .directive flags ch] [w]
      (['0'.toUInt8] ++ (['x'.toUInt8] ++ (digits ++ []))) :=
    .cons .plain (.cons .plain (.cons hprints .nil))
  rw [List.append_nil, List.singleton_append, List.singleton_append] at hr
  have hall : ∀ c ∈ '0'.toUInt8 :: 'x'.toUInt8 :: digits, c ≠ 0 ∧ isspace c = false :=
    List.forall_mem_cons.mpr ⟨by decide, List.forall_mem_cons.mpr ⟨by decide, hmem⟩⟩
  have hnul : 0 ∉ '0'.toUInt8 :: 'x'.toUInt8 :: digits := fun h => (hall 0 h).1 rfl
  have hreturns := returns_numeral hnul (fun c hc => (hall c hc).2)
    (.bare (unsigned_hex uppercase flags.zeros w.toNat))
  rw [long_toNat] at hreturns
  refine ⟨'0'.toUInt8 :: 'x'.toUInt8 :: digits, ?_, hreturns⟩
  have hbytes : '0'.toUInt8 :: 'x'.toUInt8 :: (Piece.directive flags ch).bytes =
      formatBytes [.plain '0'.toUInt8, .plain 'x'.toUInt8, .directive flags ch] none := by
    unfold formatBytes
    simp [Piece.bytes]
  have hch0 : ch ≠ 0 := by
    rcases hch with rfl | rfl <;> decide
  rw [htext] at hlen
  rw [hbytes]
  refine vprint_renders ?_ hr (by simp only [List.length_cons]; omega) hnul
  refine List.forall_mem_cons.mpr ⟨⟨by decide, by decide⟩,
    List.forall_mem_cons.mpr ⟨⟨by decide, by decide⟩, ?_⟩⟩
  intro p hp
  rw [List.mem_singleton.mp hp]
  exact ⟨hch0, before_of_long hd hl _⟩

/-- **Printed numbers are read back.**  `atol` gets from what `%ld` and `0x%lx` print, with any
width, the `long` that was printed. -/
theorem printed_reads_back (f : Copy) (str : Word → List UInt8) (hd : flags.Digits)
    (hl : flags.long = true) (hz : flags.zeros < 23) :
    (∀ w, w.toInt ≠ -2 ^ 63 → ∃ text,
      vprint f str (Piece.directive flags 'd'.toUInt8).bytes [w] = .ok text ∧
        Returns text w.toInt) ∧
    ∀ w, f.Covers true w.toInt → ∀ ch ∈ ['x'.toUInt8, 'X'.toUInt8], ∃ text,
      vprint f str ('0'.toUInt8 :: 'x'.toUInt8 :: (Piece.directive flags ch).bytes) [w] = .ok text ∧
        Returns text w.toInt :=
  ⟨fun _ hw => reads_signed hd hl hz hw,
    fun _ hcov _ hch => reads_hex hd hl hz (by simpa using hch) hcov⟩

/-- `%08ld` and `0x%08lx`. -/
theorem printed_reads_back_eight :
    (∀ w, w.toInt ≠ -2 ^ 63 → ∃ text,
      vprint .printk (fun _ => []) (Piece.directive ⟨some [56], true⟩ 'd'.toUInt8).bytes [w] =
        .ok text ∧ Returns text w.toInt) ∧
    ∀ w, Copy.printk.Covers true w.toInt → ∀ ch ∈ ['x'.toUInt8, 'X'.toUInt8], ∃ text,
      vprint .printk (fun _ => [])
        ('0'.toUInt8 :: 'x'.toUInt8 :: (Piece.directive ⟨some [56], true⟩ ch).bytes) [w] = .ok text ∧
        Returns text w.toInt :=
  printed_reads_back .printk (fun _ => [])
    (fun ds hds c hc => by
      cases hds
      rw [List.mem_singleton.mp hc]
      rfl) rfl (by decide)

end ReadBack

end Print
