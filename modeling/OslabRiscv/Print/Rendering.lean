import OslabRiscv.Print.Numbers

/-!
# What a format says

A format is a list of pieces: plain characters, and directives with a width, an `l` and a
conversion.  At its end there may be a directive that is broken off, which prints nothing.  Every
format is such a list (`exists_pieces`), and `mini_vsnprintf` prints the pieces one after the
other, as far as the buffer goes (`miniVsnprintf_renders`).
-/

namespace Print

open Assembly (Word)
open Numerals TinyLibc

/-! ## Pieces -/

/-- The part of a directive in front of its conversion: the digits of the width behind a zero, and
whether there is an `l`. -/
structure Flags where
  width : Option (List UInt8)
  long : Bool
  deriving DecidableEq, Repr

inductive Piece
  | plain (ch : UInt8)
  | directive (flags : Flags) (ch : UInt8)
  deriving DecidableEq, Repr

def Flags.bytes (flags : Flags) : List UInt8 :=
  (match flags.width with
    | some ds => '0'.toUInt8 :: ds
    | none => []) ++ if flags.long then ['l'.toUInt8] else []

def Piece.bytes : Piece → List UInt8
  | .plain ch => [ch]
  | .directive flags ch => '%'.toUInt8 :: (flags.bytes ++ [ch])

/-- The width is made of digits, and the character behind the flags is none of them. -/
structure Flags.Before (flags : Flags) (ch : UInt8) : Prop where
  digits : ∀ ds, flags.width = some ds → ∀ c ∈ ds, isdigit c = true
  zero : flags.width = none → flags.long = false → ch ≠ '0'.toUInt8
  digit : flags.width ≠ none → flags.long = false → isdigit ch = false
  long : flags.long = false → ch ≠ 'l'.toUInt8

def Piece.Ok : Piece → Prop
  | .plain ch => ch ≠ 0 ∧ ch ≠ '%'.toUInt8
  | .directive flags ch => ch ≠ 0 ∧ flags.Before ch

/-- The width is a `char`. -/
def Flags.zeros (flags : Flags) : Nat :=
  match flags.width with
  | some ds => digitsVal 10 ds % 256
  | none => 0

/-- The integer conversions: base, upper case, and whether the number has no sign. -/
def intConv (ch : UInt8) : Option (Nat × Bool × Bool) :=
  if ch = 'u'.toUInt8 then some (10, false, true)
  else if ch = 'd'.toUInt8 then some (10, false, false)
  else if ch = 'x'.toUInt8 then some (16, false, true)
  else if ch = 'X'.toUInt8 then some (16, true, true)
  else none

/-- What a piece prints, and the arguments behind it.  A directive it does not know prints itself,
and `%ll` nothing. -/
inductive Prints (f : Copy) (str : Word → List UInt8) :
    Piece → List Word → List UInt8 → List Word → Prop
  | plain {ch : UInt8} {va : List Word} : Prints f str (.plain ch) va [ch] va
  | int {flags : Flags} {ch : UInt8} {w : Word} {va : List Word} {radix : Nat}
      {uppercase unsig : Bool} : intConv ch = some (radix, uppercase, unsig) →
      f.Covers unsig (intArg flags.long w) →
      (numeralText radix uppercase unsig flags.zeros (intArg flags.long w)).length < 24 →
      Prints f str (.directive flags ch) (w :: va)
        (numeralText radix uppercase unsig flags.zeros (intArg flags.long w)) va
  | char {flags : Flags} {w : Word} {va : List Word} :
      Prints f str (.directive flags 'c'.toUInt8) (w :: va) [UInt8.ofNat w.toNat] va
  | string {flags : Flags} {w : Word} {va : List Word} :
      Prints f str (.directive flags 's'.toUInt8) (w :: va)
        ((str w).take (Screen.strlen (str w))) va
  | nothing {flags : Flags} {va : List Word} : Prints f str (.directive flags 'l'.toUInt8) va [] va
  | itself {flags : Flags} {ch : UInt8} {va : List Word} : intConv ch = none →
      ch ∉ ['c'.toUInt8, 's'.toUInt8, 'l'.toUInt8] → Prints f str (.directive flags ch) va [ch] va

/-- The text of all pieces. -/
inductive Renders (f : Copy) (str : Word → List UInt8) :
    List Piece → List Word → List UInt8 → Prop
  | nil {va : List Word} : Renders f str [] va []
  | cons {p : Piece} {ps : List Piece} {va va' : List Word} {t t' : List UInt8} :
      Prints f str p va t va' → Renders f str ps va' t' → Renders f str (p :: ps) va (t ++ t')

/-- The format of the pieces, with what is broken off at its end. -/
def formatBytes (ps : List Piece) (broken : Option Flags) : List UInt8 :=
  ps.flatMap Piece.bytes ++
    match broken with
    | some flags => '%'.toUInt8 :: flags.bytes
    | none => []

/-- The width of a broken directive is made of digits. -/
def Flags.Digits (flags : Flags) : Prop :=
  ∀ ds, flags.width = some ds → ∀ c ∈ ds, isdigit c = true

/-! ## Reading flags -/

section Reading

variable {flags : Flags} {ch : UInt8} {ds fmt : List UInt8}

/-- A digit is not the null. -/
theorem ne_zero_of_isdigit (h : isdigit ch = true) : ch ≠ 0 := by
  rintro rfl
  exact absurd h (by decide)

/-- The value so far, in a `char`. -/
def widthVal (zeroPad : UInt8) (ds : List UInt8) : UInt8 :=
  ds.foldl (fun z c => z * 10 + c - '0'.toUInt8) zeroPad

/-- The loop over the width reads all its digits. -/
theorem zeroPadLoop_digits (fmt : List UInt8) (hds : ∀ c ∈ ds, isdigit c = true) (zeroPad : UInt8) :
    zeroPadLoop (ds ++ fmt) zeroPad = zeroPadLoop fmt (widthVal zeroPad ds) := by
  induction ds generalizing zeroPad with
  | nil => rfl
  | cons c ds ih =>
    have hc := hds c List.mem_cons_self
    rw [List.cons_append, zeroPadLoop, if_neg (ne_zero_of_isdigit hc), if_pos hc,
      ih fun d hd => hds d (List.mem_cons_of_mem _ hd)]
    rfl

/-- One digit more of the width, in a byte. -/
theorem widthVal_step (z c : UInt8) (hc : isdigit c = true) :
    (z * 10 + c - '0'.toUInt8).toNat = (z.toNat * 10 + digitVal c) % 256 := by
  have hlo : 48 ≤ c.toNat := by
    have hand := hc
    unfold isdigit at hand
    rw [Bool.and_eq_true, decide_eq_true_eq] at hand
    exact le_toNat_of_le hand.1
  have hval : digitVal c = c.toNat - 48 := if_pos hc
  have hzero : ('0'.toUInt8).toNat = 48 := rfl
  rw [hval, UInt8.toNat_sub, UInt8.toNat_add, UInt8.toNat_mul, hzero]
  have hten : (10 : UInt8).toNat = 10 := rfl
  rw [hten]
  omega

/-- The width is the value of its digits, in a byte. -/
theorem widthVal_toNat (hds : ∀ c ∈ ds, isdigit c = true) :
    (widthVal 0 ds).toNat = digitsVal 10 ds % 256 := by
  induction ds using List.reverseRecOn with
  | nil => rfl
  | append_singleton ds c ih =>
    have hlast : widthVal 0 (ds ++ [c]) = widthVal 0 ds * 10 + c - '0'.toUInt8 :=
      List.foldl_append ..
    rw [hlast, widthVal_step _ _ (hds c (by simp)), digitsVal_append,
      ih fun d hd => hds d (List.mem_append_left _ hd)]
    omega

/-- The width is read, up to a character that is no digit. -/
theorem zeroPadLoop_width (fmt : List UInt8) (hds : ∀ c ∈ ds, isdigit c = true) (hch : ch ≠ 0)
    (hno : isdigit ch = false) :
    zeroPadLoop (ds ++ ch :: fmt) 0 = (UInt8.ofNat (digitsVal 10 ds % 256), ch, fmt) := by
  rw [zeroPadLoop_digits _ hds, zeroPadLoop, if_neg hch, if_neg (by rw [hno]; decide),
    ← widthVal_toNat hds, UInt8.ofNat_toNat]

/-- The flags are read as they were written. -/
theorem readFlags_bytes (fmt : List UInt8) (hch : ch ≠ 0) (hf : flags.Before ch) :
    readFlags (flags.bytes ++ ch :: fmt) = (UInt8.ofNat flags.zeros, flags.long, ch, fmt) := by
  obtain ⟨width, long⟩ := flags
  cases width with
  | none =>
    cases long with
    | false =>
      have hzero := hf.zero rfl rfl
      have hl := hf.long rfl
      simp [readFlags, Flags.bytes, next, Flags.zeros, hzero, hl]
    | true => rfl
  | some ds =>
    have hds := hf.digits ds rfl
    cases long with
    | false =>
      have hl := hf.long rfl
      have hpad := zeroPadLoop_width fmt hds hch (hf.digit (by simp) rfl)
      simp [readFlags, Flags.bytes, next, Flags.zeros, hl, hpad]
    | true =>
      have hpad := zeroPadLoop_width (ch :: fmt) hds
        (by decide : 'l'.toUInt8 ≠ 0) (by decide)
      simp [readFlags, Flags.bytes, next, Flags.zeros, hpad]

/-- Where the format ends within the flags, there is no conversion. -/
theorem readFlags_broken (hf : flags.Digits) : (readFlags flags.bytes).2.2.1 = 0 := by
  obtain ⟨width, long⟩ := flags
  cases width with
  | none => cases long <;> rfl
  | some ds =>
    have hds := hf ds rfl
    cases long with
    | false =>
      have hend := zeroPadLoop_digits [] hds 0
      rw [List.append_nil] at hend
      simp only [readFlags, Flags.bytes, next, hend, zeroPadLoop, Bool.false_eq_true, if_false,
        List.append_nil, if_true]
      rfl
    | true =>
      have hpad := zeroPadLoop_width [] hds
        (by decide : 'l'.toUInt8 ≠ 0) (by decide)
      simp [readFlags, Flags.bytes, next, hpad]

end Reading

/-! ## The buffer -/

section Buffer

variable {n : Nat} {text s : List UInt8}

/-- What is cut off first would be cut off anyway. -/
theorem take_append_take (k : Nat) (xs ys : List UInt8) :
    (xs.take k ++ ys).take k = (xs ++ ys).take k := by
  rw [List.take_append, List.take_append, List.take_take, Nat.min_self, List.length_take]
  by_cases h : xs.length ≤ k
  · rw [Nat.min_eq_right h]
  · rw [Nat.min_eq_left (by omega), Nat.sub_self, Nat.sub_eq_zero_of_le (by omega)]

/-- `_putc` puts a character where there is room for it. -/
theorem putc_eq (ch : UInt8) (h : text.length + 1 < n) :
    putc ch ⟨text, n⟩ = ⟨(text ++ [ch]).take (n - 1), n⟩ := by
  have hlen : (text ++ [ch]).length ≤ n - 1 := by
    rw [List.length_append, List.length_singleton]
    omega
  have hroom : ¬n ≤ text.length + 1 := by omega
  rw [List.take_of_length_le hlen]
  exact if_neg hroom

/-- `_puts` puts as much of a string as there is room for. -/
theorem puts_eq (s : List UInt8) (len : Nat) (h : text.length + 1 < n) :
    puts s len ⟨text, n⟩ = ⟨(text ++ s.take len).take (n - 1), n⟩ := by
  have hroom : n - text.length - 1 = n - 1 - text.length := by omega
  have hmin : (if n - 1 - text.length < len then n - 1 - text.length else len) =
      min (n - 1 - text.length) len := by
    split <;> omega
  rw [List.take_append, List.take_of_length_le (by omega : text.length ≤ n - 1), List.take_take,
    ← hmin, ← hroom]
  rfl

/-- An integer conversion takes an integer. -/
theorem conversion_int {f : Copy} {str : Word → List UInt8} {longflag : Bool} {zeroPad ch : UInt8}
    {va : List Word} {b : MiniBuff} {radix : Nat} {uppercase unsig : Bool}
    (h : intConv ch = some (radix, uppercase, unsig)) :
    conversion f str longflag zeroPad ch va b =
      putInt f longflag radix uppercase unsig zeroPad va b ∧ 1 < radix ∧ radix ≤ 16 := by
  unfold intConv at h
  split_ifs at h with hu hd hx hX
  all_goals
    obtain ⟨rfl, rfl, rfl⟩ := h
    subst ch
    exact ⟨rfl, by decide, by decide⟩

/-- An argument fits into a `long`. -/
theorem intArg_fits (longflag : Bool) (w : Word) : FitsLong (intArg longflag w) := by
  unfold intArg FitsLong
  have hlo := BitVec.le_toInt w
  have hhi := BitVec.toInt_lt (x := w)
  cases longflag with
  | true => exact ⟨by simpa using hlo, by simpa using hhi⟩
  | false =>
    rw [if_neg (by decide)]
    omega

/-- A letter that is no conversion prints itself. -/
theorem conversion_itself {f : Copy} {str : Word → List UInt8} {longflag : Bool}
    {zeroPad ch : UInt8} {va : List Word} {b : MiniBuff} (h : intConv ch = none)
    (hch : ch ∉ ['c'.toUInt8, 's'.toUInt8, 'l'.toUInt8]) :
    conversion f str longflag zeroPad ch va b = .ok (va, putc ch b) := by
  simp only [List.mem_cons, List.not_mem_nil, or_false, not_or] at hch
  obtain ⟨hc, hs, hl⟩ := hch
  unfold intConv at h
  split_ifs at h with hu hd hx hX
  unfold conversion
  rw [if_neg hl, if_neg (not_or.mpr ⟨hu, hd⟩), if_neg (not_or.mpr ⟨hx, hX⟩), if_neg hc, if_neg hs]

/-- One directive. -/
theorem conversion_prints {f : Copy} {str : Word → List UInt8} {flags : Flags} {ch : UInt8}
    {va va' : List Word} {t : List UInt8} (h : text.length + 1 < n)
    (hp : Prints f str (.directive flags ch) va t va') :
    conversion f str flags.long (UInt8.ofNat flags.zeros) ch va ⟨text, n⟩ =
      .ok (va', ⟨(text ++ t).take (n - 1), n⟩) := by
  have hzeros : (UInt8.ofNat flags.zeros).toNat = flags.zeros := by
    rw [UInt8.toNat_ofNat']
    refine Nat.mod_eq_of_lt ?_
    unfold Flags.zeros
    cases flags.width with
    | none => decide
    | some ds => exact Nat.mod_lt _ (by decide)
  cases hp with
  | @int _ _ w _ radix uppercase unsig hconv hcov hlen =>
    obtain ⟨hint, hradix, hmax⟩ := conversion_int hconv
    have hitoa : miniItoa f (intArg flags.long w) radix uppercase unsig flags.zeros = .ok _ :=
      (miniItoa_spec hradix hmax (intArg_fits _ _) hcov).trans (if_pos hlen)
    rw [hint, putInt, vaArg]
    change (miniItoa _ _ _ _ _ _ >>= _) = _
    rw [hzeros, hitoa]
    have hputs := puts_eq (numeralText radix uppercase unsig flags.zeros (intArg flags.long w))
      (numeralText radix uppercase unsig flags.zeros (intArg flags.long w)).length h
    rw [List.take_length] at hputs
    exact congrArg (fun b => Except.ok (va', b)) hputs
  | char => exact congrArg (fun b => Except.ok (va', b)) (putc_eq _ h)
  | string => exact congrArg (fun b => Except.ok (va', b)) (puts_eq _ _ h)
  | nothing =>
    rw [List.append_nil, List.take_of_length_le (by omega)]
    rfl
  | itself hconv hch =>
    rw [conversion_itself hconv hch, putc_eq _ h]

end Buffer

/-! ## Whole formats -/

section Formats

variable {f : Copy} {str : Word → List UInt8} {n : Nat}

theorem Piece.bytes_ne_nil (p : Piece) : p.bytes ≠ [] := by
  cases p <;> exact List.cons_ne_nil _ _

/-- What a round of the loop does at a piece. -/
theorem formatLoop_piece {rounds : Nat} {p : Piece} {rest text t : List UInt8} {va va' : List Word}
    (hok : p.Ok) (h : text.length + 1 < n) (hp : Prints f str p va t va') :
    formatLoop f str (rounds + 1) (p.bytes ++ rest) va ⟨text, n⟩ =
      formatLoop f str rounds rest va' ⟨(text ++ t).take (n - 1), n⟩ := by
  have hroom : ¬n ≤ text.length + 1 := by omega
  cases p with
  | plain ch =>
    cases hp
    obtain ⟨hzero, hpercent⟩ := hok
    rw [← putc_eq ch h]
    simp only [formatLoop, Piece.bytes, List.singleton_append, next, hzero, hroom, if_false]
    exact if_pos hpercent
  | directive flags ch =>
    obtain ⟨hzero, hbefore⟩ := hok
    have hread := readFlags_bytes rest hzero hbefore
    have hconv := conversion_prints h hp
    have hassoc : '%'.toUInt8 :: (flags.bytes ++ [ch]) ++ rest =
        '%'.toUInt8 :: (flags.bytes ++ ch :: rest) := by simp
    simp only [formatLoop, Piece.bytes, hassoc, next, hread, hzero, hroom, hconv, if_false]
    rfl

/-- In a full buffer nothing more is printed. -/
theorem formatLoop_full {rounds : Nat} {fmt : List UInt8} {va : List Word} {text : List UInt8}
    (h : n ≤ text.length + 1) : formatLoop f str (rounds + 1) fmt va ⟨text, n⟩ = .ok ⟨text, n⟩ := by
  unfold formatLoop
  by_cases hz : (next fmt).1 = 0
  · exact if_pos hz
  · exact (if_neg hz).trans (if_pos h)

/-- What is broken off prints nothing. -/
theorem formatLoop_broken {rounds : Nat} {broken : Option Flags} {va : List Word} {b : MiniBuff}
    (hbroken : ∀ flags, broken = some flags → flags.Digits) :
    formatLoop f str (rounds + 1) (formatBytes [] broken) va b = .ok b := by
  cases broken with
  | none => rfl
  | some flags =>
    have hread := readFlags_broken (hbroken flags rfl)
    by_cases hfull : b.bufferLen ≤ b.text.length + 1
    · exact formatLoop_full hfull
    · have hpercent : ¬ '%'.toUInt8 = 0 := by decide
      simp only [formatLoop, formatBytes, List.flatMap_nil, List.nil_append, next, hpercent, hfull,
        hread, ne_eq, not_true_eq_false, if_false, if_true]

/-- The loop over the format prints the pieces, by induction on them. -/
theorem formatLoop_renders {ps : List Piece} {broken : Option Flags} {va : List Word}
    {t : List UInt8} (hr : Renders f str ps va t) (hok : ∀ p ∈ ps, p.Ok)
    (hbroken : ∀ flags, broken = some flags → flags.Digits) :
    ∀ (rounds : Nat) (text : List UInt8), (formatBytes ps broken).length < rounds →
      text.length ≤ n - 1 → formatLoop f str rounds (formatBytes ps broken) va ⟨text, n⟩ =
        .ok ⟨(text ++ t).take (n - 1), n⟩ := by
  induction hr with
  | nil =>
    intro rounds text hrounds htext
    obtain ⟨rounds, rfl⟩ := Nat.exists_eq_succ_of_ne_zero (by omega : rounds ≠ 0)
    rw [formatLoop_broken hbroken, List.append_nil, List.take_of_length_le htext]
  | @cons p ps va va' t t' hp _ ih =>
    intro rounds text hrounds htext
    obtain ⟨rounds, rfl⟩ := Nat.exists_eq_succ_of_ne_zero (by omega : rounds ≠ 0)
    by_cases hfull : n ≤ text.length + 1
    · have htake : (text ++ (t ++ t')).take (n - 1) = text := by
        rw [List.take_append, List.take_of_length_le htext, Nat.sub_eq_zero_of_le (by omega),
          List.take_zero, List.append_nil]
      rw [formatLoop_full hfull, htake]
    · have hbytes : formatBytes (p :: ps) broken = p.bytes ++ formatBytes ps broken := by
        unfold formatBytes
        rw [List.flatMap_cons, List.append_assoc]
      have hpos := List.length_pos_iff.mpr p.bytes_ne_nil
      rw [hbytes, List.length_append] at hrounds
      rw [hbytes, formatLoop_piece (hok p List.mem_cons_self) (by omega) hp,
        ih (fun q hq => hok q (List.mem_cons_of_mem _ hq)) rounds _ (by omega)
          (by rw [List.length_take]; omega),
        take_append_take, List.append_assoc]

/-- **What is printed.**  The texts of the pieces stand in the buffer one after the other, cut off
where it ends. -/
theorem miniVsnprintf_renders {ps : List Piece} {broken : Option Flags} {va : List Word}
    {t : List UInt8} (hok : ∀ p ∈ ps, p.Ok)
    (hbroken : ∀ flags, broken = some flags → flags.Digits) (hr : Renders f str ps va t) :
    miniVsnprintf f str n (formatBytes ps broken) va = .ok (t.take (n - 1)) := by
  unfold miniVsnprintf
  rw [formatLoop_renders hr hok hbroken _ _ (Nat.lt_succ_self _) (Nat.zero_le _)]
  rfl

/-- A text without nulls is as long as its bytes. -/
theorem strlen_eq_length {text : List UInt8} (h : 0 ∉ text) : Screen.strlen text = text.length := by
  induction text with
  | nil => rfl
  | cons c text ih =>
    rw [List.mem_cons, not_or] at h
    rw [Screen.strlen, if_neg (Ne.symm h.1), ih h.2, List.length_cons]

/-- A text that is short and has no NUL goes to the output as it is. -/
theorem vprint_renders {ps : List Piece} {va : List Word} {t : List UInt8} (hok : ∀ p ∈ ps, p.Ok)
    (hr : Renders f str ps va t) (hlen : t.length < 256) (hnul : 0 ∉ t) :
    vprint f str (formatBytes ps none) va = .ok t := by
  have htake : t.take (256 - 1) = t := List.take_of_length_le (by omega)
  have hbroken : ∀ flags, (none : Option Flags) = some flags → flags.Digits := by
    intro _ h
    cases h
  unfold vprint
  rw [miniVsnprintf_renders hok hbroken hr, htake]
  change Except.ok (t.take (Screen.strlen t)) = _
  rw [strlen_eq_length hnul, List.take_length]

end Formats

/-! ## Every format -/

section Every

variable {fmt : List UInt8}

/-- The digits at the front. -/
theorem exists_digits (fmt : List UInt8) : ∃ ds rest, fmt = ds ++ rest ∧
    (∀ c ∈ ds, isdigit c = true) ∧ ∀ c cs, rest = c :: cs → isdigit c = false := by
  refine ⟨fmt.takeWhile isdigit, fmt.dropWhile isdigit, List.takeWhile_append_dropWhile.symm,
    fun c hc => List.mem_takeWhile_imp hc, fun c cs hcs => ?_⟩
  have hhead := List.head?_dropWhile_not isdigit fmt
  rw [hcs] at hhead
  simpa using hhead

/-- An `l` at the front, or none. -/
theorem exists_long (width : Option (List UInt8)) (fmt : List UInt8)
    (hwidth : ∀ ds, width = some ds → ∀ c ∈ ds, isdigit c = true)
    (hzero : width = none → ∀ c cs, fmt = c :: cs → c ≠ '0'.toUInt8)
    (hdigit : width ≠ none → ∀ c cs, fmt = c :: cs → isdigit c = false) :
    ∃ long rest, fmt = (if long then ['l'.toUInt8] else []) ++ rest ∧
      (Flags.mk width long).Digits ∧ ∀ c cs, rest = c :: cs → (Flags.mk width long).Before c := by
  by_cases hl : ∃ cs, fmt = 'l'.toUInt8 :: cs
  · obtain ⟨cs, rfl⟩ := hl
    refine ⟨true, cs, rfl, hwidth, fun c _ _ => ⟨hwidth, ?_, ?_, ?_⟩⟩
    · exact fun _ hfalse => nomatch hfalse
    · exact fun _ hfalse => nomatch hfalse
    · exact fun hfalse => nomatch hfalse
  · refine ⟨false, fmt, rfl, hwidth, fun c cs hcs => ⟨hwidth, ?_, ?_, ?_⟩⟩
    · exact fun hnone _ => hzero hnone c cs hcs
    · exact fun hsome _ => hdigit hsome c cs hcs
    · rintro _ rfl
      exact hl ⟨cs, hcs⟩

/-- The front of any format can be read as flags. -/
theorem exists_flags (fmt : List UInt8) : ∃ flags : Flags, ∃ rest, fmt = flags.bytes ++ rest ∧
    flags.Digits ∧ ∀ c cs, rest = c :: cs → flags.Before c := by
  by_cases hzero : ∃ cs, fmt = '0'.toUInt8 :: cs
  · obtain ⟨cs, rfl⟩ := hzero
    obtain ⟨ds, rest, rfl, hds, hrest⟩ := exists_digits cs
    obtain ⟨long, rest, rfl, hdigits, hbefore⟩ := exists_long (some ds) rest
      (fun _ heq => by
        cases heq
        exact hds)
      (fun hnone => nomatch hnone) (fun _ => hrest)
    refine ⟨⟨some ds, long⟩, rest, ?_, hdigits, hbefore⟩
    unfold Flags.bytes
    rw [List.cons_append, List.cons_append, List.append_assoc]
  · obtain ⟨long, rest, rfl, hdigits, hbefore⟩ := exists_long none fmt (fun _ heq => nomatch heq)
      (fun _ c cs hcs hc => hzero ⟨cs, hc ▸ hcs⟩) (fun hne => absurd rfl hne)
    exact ⟨⟨none, long⟩, rest, rfl, hdigits, hbefore⟩

/-- Every format consists of pieces, and of what is broken off at its end. -/
theorem exists_pieces (hfmt : 0 ∉ fmt) : ∃ ps broken, fmt = formatBytes ps broken ∧
    (∀ p ∈ ps, p.Ok) ∧ ∀ flags, broken = some flags → flags.Digits := by
  have hnil : ∀ p ∈ ([] : List Piece), p.Ok := fun _ hp => absurd hp List.not_mem_nil
  induction hn : fmt.length using Nat.strong_induction_on generalizing fmt with
  | _ k ih =>
    cases fmt with
    | nil => exact ⟨[], none, rfl, hnil, fun _ h => nomatch h⟩
    | cons c fmt =>
      rw [List.mem_cons, not_or] at hfmt
      have hcons : ∀ (p : Piece) (rest : List UInt8), p.Ok → c :: fmt = p.bytes ++ rest → 0 ∉ rest →
          ∃ ps broken, c :: fmt = formatBytes ps broken ∧ (∀ p ∈ ps, p.Ok) ∧
            ∀ flags, broken = some flags → flags.Digits := by
        intro p rest hp heq hrest
        have hlen := congrArg List.length heq
        rw [List.length_append] at hlen
        have hpos := List.length_pos_iff.mpr p.bytes_ne_nil
        obtain ⟨ps, broken, hps, hok, hbroken⟩ := ih rest.length (by omega) hrest rfl
        refine ⟨p :: ps, broken, ?_, List.forall_mem_cons.mpr ⟨hp, hok⟩, hbroken⟩
        rw [heq, hps]
        unfold formatBytes
        rw [List.flatMap_cons, List.append_assoc]
      by_cases hpercent : c = '%'.toUInt8
      · obtain ⟨flags, rest, hrest, hdigits, hbefore⟩ := exists_flags fmt
        cases rest with
        | nil =>
          rw [List.append_nil] at hrest
          refine ⟨[], some flags, ?_, hnil, fun _ heq => ?_⟩
          · rw [hpercent, hrest]
            rfl
          · cases heq
            exact hdigits
        | cons ch rest =>
          have hno : 0 ∉ ch :: rest := fun h =>
            hfmt.2 (hrest ▸ List.mem_append_right _ h)
          rw [List.mem_cons, not_or] at hno
          refine hcons (.directive flags ch) rest ⟨Ne.symm hno.1, hbefore ch rest rfl⟩ ?_ hno.2
          rw [hpercent, hrest]
          simp [Piece.bytes]
      · exact hcons (.plain c) fmt ⟨Ne.symm hfmt.1, hpercent⟩ rfl hfmt.2

/-- A format taken apart. -/
structure Apart (fmt : List UInt8) (ps : List Piece) (broken : Option Flags) : Prop where
  bytes : fmt = formatBytes ps broken
  ok : ∀ p ∈ ps, p.Ok
  broken : ∀ flags, broken = some flags → flags.Digits

/-- **Every format prints its pieces.**  It can be taken apart, and what is in the buffer behind the
call is the texts of the pieces, cut off where the buffer ends. -/
theorem every_format_renders (f : Copy) (str : Word → List UInt8) (hfmt : 0 ∉ fmt) :
    (∃ ps broken, Apart fmt ps broken) ∧ ∀ ps broken, Apart fmt ps broken →
      ∀ n va t, Renders f str ps va t → miniVsnprintf f str n fmt va = .ok (t.take (n - 1)) := by
  constructor
  · obtain ⟨ps, broken, hbytes, hok, hbroken⟩ := exists_pieces hfmt
    exact ⟨ps, broken, hbytes, hok, hbroken⟩
  · rintro ps broken ⟨rfl, hok, hbroken⟩ n va t hr
    exact miniVsnprintf_renders hok hbroken hr

/-- `%04x%`, the second directive being broken off: of `00ff` three characters have room. -/
theorem every_format_renders_hex :
    miniVsnprintf .printk (fun _ => []) 4 [37, 48, 52, 120, 37] [255] = .ok [48, 48, 102] := by
  have hapart : Apart [37, 48, 52, 120, 37] [.directive ⟨some [52], false⟩ 'x'.toUInt8]
      (some ⟨none, false⟩) := by
    refine ⟨rfl, fun p hp => ?_, fun flags hflags ds hds => ?_⟩
    · rw [List.mem_singleton.mp hp]
      refine ⟨by decide, fun ds hds c hc => ?_, fun h => ?_, fun _ _ => by decide, fun _ => by decide⟩
      · cases hds
        rw [List.mem_singleton.mp hc]
        decide
      · cases h
    · cases hflags
      cases hds
  have hprints : Prints .printk (fun _ => []) (.directive ⟨some [52], false⟩ 'x'.toUInt8) [255]
      [48, 48, 102, 102] [] :=
    .int (w := 255) (rfl : intConv 'x'.toUInt8 = some (16, false, true)) (.inl rfl) (by decide)
  exact (every_format_renders .printk (fun _ => []) (by decide)).2 _ _ hapart 4 _ _
    (.cons hprints .nil)

end Every

end Print
