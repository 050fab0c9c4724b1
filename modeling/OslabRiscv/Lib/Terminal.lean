import OslabRiscv.Lib.Numerals

/-!
# A terminal

What a VT100 does with the bytes it gets: printable characters go to the cell under the cursor,
which moves on, and escape sequences move the cursor or clear the screen.  Rows and columns are
counted from one.

`feed_place` is what programs that draw on a terminal rest on: a cursor sequence followed by a
character changes the one cell it names.
-/

namespace Terminal

/-- What the next byte belongs to: text, an escape sequence, or a control sequence with the
parameters so far, the last one apart. -/
inductive Mode
  | ground
  | escape
  | control (priv : Bool) (params : List Nat) (last : Nat)
  deriving DecidableEq, Repr

structure Term where
  rows : Nat
  cols : Nat
  cell : Nat → Nat → UInt8
  row : Nat
  col : Nat
  /-- The last column has been written, and the next character goes to the next line. -/
  pending : Bool
  mode : Mode

def blank : UInt8 := 32

def isPrintable (b : UInt8) : Bool := 32 ≤ b && b < 127

/-- One line down, the screen moving up at the bottom. -/
def lineFeed (t : Term) : Term :=
  if t.row < t.rows then { t with row := t.row + 1 }
  else { t with cell := fun r c => if r < t.rows then t.cell (r + 1) c else blank }

def wrap (t : Term) : Term :=
  if t.pending then { lineFeed t with col := 1, pending := false } else t

def setCell (r c : Nat) (b : UInt8) (cell : Nat → Nat → UInt8) : Nat → Nat → UInt8 :=
  fun r' c' => if r' = r ∧ c' = c then b else cell r' c'

/-- A printable character. -/
def put (b : UInt8) (t : Term) : Term :=
  let t := wrap t
  { t with
    cell := setCell t.row t.col b t.cell
    col := if t.col < t.cols then t.col + 1 else t.col
    pending := t.cols ≤ t.col }

/-- Line feed, carriage return and backspace. -/
def controlChar (b : UInt8) (t : Term) : Term :=
  if b = 10 then lineFeed t
  else if b = 13 then { t with col := 1, pending := false }
  else if b = 8 then { t with col := max 1 (t.col - 1), pending := false }
  else t

/-- A place that is on the screen. -/
def clip (n limit : Nat) : Nat := min (max n 1) limit

/-- The end of a control sequence: `H` moves the cursor, `2J` clears the screen. -/
def dispatch (priv : Bool) (params : List Nat) (last : Nat) (final : UInt8) (t : Term) : Term :=
  if priv then t
  else if final = 'H'.toUInt8 then
    match params with
    | [row] => { t with row := clip row t.rows, col := clip last t.cols, pending := false }
    | _ => { t with row := clip last t.rows, col := 1, pending := false }
  else if final = 'J'.toUInt8 ∧ last = 2 then { t with cell := fun _ _ => blank }
  else t

def step (b : UInt8) (t : Term) : Term :=
  match t.mode with
  | .ground =>
    if b = 27 then { t with mode := .escape }
    else if isPrintable b then put b t
    else controlChar b t
  | .escape =>
    if b = '['.toUInt8 then { t with mode := .control false [] 0 } else { t with mode := .ground }
  | .control priv params last =>
    if 48 ≤ b ∧ b < 58 then { t with mode := .control priv params (last * 10 + (b.toNat - 48)) }
    else if b = ';'.toUInt8 then { t with mode := .control priv (last :: params) 0 }
    else if b = '?'.toUInt8 then { t with mode := .control true params last }
    else { dispatch priv params last b t with mode := .ground }

/-- One byte after the other. -/
def feed (bs : List UInt8) (t : Term) : Term := bs.foldl (fun t b => step b t) t

/-- Decimal digits. -/
def digits (n : Nat) : List UInt8 := (Numerals.numeral 10 0 n).map fun d => UInt8.ofNat (48 + d)

/-- `ESC [ row ; col H` -/
def moveTo (row col : Nat) : List UInt8 :=
  27 :: '['.toUInt8 :: (digits row ++ ';'.toUInt8 :: (digits col ++ ['H'.toUInt8]))

section Feed

variable {t : Term}

theorem feed_append (bs cs : List UInt8) (t : Term) : feed (bs ++ cs) t = feed cs (feed bs t) :=
  List.foldl_append ..

theorem feed_cons (b : UInt8) (bs : List UInt8) (t : Term) :
    feed (b :: bs) t = feed bs (step b t) := rfl

/-- Digits go to the last parameter. -/
theorem feed_digitBytes {priv : Bool} {params : List Nat} {ds : List Nat} (hds : ∀ d ∈ ds, d < 10) :
    ∀ last, t.mode = .control priv params last →
      feed (ds.map fun d => UInt8.ofNat (48 + d)) t =
        { t with mode := .control priv params (ds.foldl (fun v d => v * 10 + d) last) } := by
  induction ds generalizing t with
  | nil =>
    intro last hmode
    rw [List.map_nil, List.foldl_nil, ← hmode]
    rfl
  | cons d ds ih =>
    intro last hmode
    have hd := hds d List.mem_cons_self
    have hbyte : ∀ d : Nat, d < 10 → (48 ≤ UInt8.ofNat (48 + d) ∧ UInt8.ofNat (48 + d) < 58) ∧
        (UInt8.ofNat (48 + d)).toNat - 48 = d := by decide
    have hstep : step (UInt8.ofNat (48 + d)) t =
        { t with mode := .control priv params (last * 10 + d) } := by
      unfold step
      rw [hmode]
      simp only [(hbyte d hd).1, (hbyte d hd).2, and_self, if_true]
    rw [List.map_cons, feed_cons, hstep]
    exact ih (fun e he => hds e (List.mem_cons_of_mem _ he)) _ rfl

theorem foldl_digits (b : Nat) (ds : List Nat) :
    ds.foldl (fun v d => v * b + d) 0 = Numerals.value b ds := by
  unfold Numerals.value
  induction ds using List.reverseRecOn with
  | nil => rfl
  | append_singleton ds d ih =>
    rw [List.foldl_append, List.reverse_append, List.reverse_singleton, List.singleton_append,
      Nat.ofDigits_cons, ← ih]
    change _ * b + d = d + b * _
    rw [Nat.mul_comm, Nat.add_comm]

/-- A number becomes the last parameter. -/
theorem feed_digits {priv : Bool} {params : List Nat} (hmode : t.mode = .control priv params 0)
    (n : Nat) : feed (digits n) t = { t with mode := .control priv params n } := by
  unfold digits
  rw [feed_digitBytes (fun d hd => Numerals.lt_of_mem_numeral (by decide) hd) 0 hmode,
    foldl_digits, Numerals.value_numeral]

/-- The cursor moves. -/
theorem feed_moveTo (hmode : t.mode = .ground) (row col : Nat) :
    feed (moveTo row col) t =
      { t with row := clip row t.rows, col := clip col t.cols, pending := false } := by
  have hopen : step '['.toUInt8 (step 27 t) = { t with mode := .control false [] 0 } := by
    have hesc : step 27 t = { t with mode := .escape } := by
      unfold step
      rw [hmode]
      rfl
    rw [hesc]
    rfl
  unfold moveTo
  rw [feed_cons, feed_cons, hopen, feed_append, feed_digits rfl, feed_cons]
  have hnext : step ';'.toUInt8 { t with mode := .control false [] row } =
      { t with mode := .control false [row] 0 } := rfl
  rw [hnext, feed_append, feed_digits rfl]
  cases t
  cases hmode
  rfl

/-- **A character at a place.**  It is shown there, and every other cell is as it was. -/
theorem feed_place (hmode : t.mode = .ground) {row col : Nat} (hrow : 0 < row ∧ row ≤ t.rows)
    (hcol : 0 < col ∧ col ≤ t.cols) {b : UInt8} (hb : isPrintable b = true) :
    feed (moveTo row col ++ [b]) t =
      { t with
        cell := setCell row col b t.cell
        row := row
        col := if col < t.cols then col + 1 else col
        pending := t.cols ≤ col } := by
  have hclip : clip row t.rows = row ∧ clip col t.cols = col := by
    unfold clip
    omega
  have hesc : b ≠ 27 := by
    rintro rfl
    exact absurd hb (by decide)
  rw [feed_append, feed_moveTo hmode, hclip.1, hclip.2]
  change step b _ = _
  unfold step
  simp only [hmode, hesc, hb, if_false, if_true]
  rfl

/-- The whole screen is cleared. -/
theorem feed_clear (hmode : t.mode = .ground) :
    feed [27, '['.toUInt8, '2'.toUInt8, 'J'.toUInt8] t = { t with cell := fun _ _ => blank } := by
  obtain ⟨rows, cols, cell, row, col, pending, mode⟩ := t
  cases hmode
  rfl

/-- A private sequence changes nothing here. -/
theorem feed_hide (hmode : t.mode = .ground) :
    feed [27, '['.toUInt8, '?'.toUInt8, '2'.toUInt8, '5'.toUInt8, 'l'.toUInt8] t = t := by
  obtain ⟨rows, cols, cell, row, col, pending, mode⟩ := t
  cases hmode
  rfl

end Feed

end Terminal
