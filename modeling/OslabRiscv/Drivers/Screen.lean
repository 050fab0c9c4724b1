import Mathlib.Data.List.DropRight
import Mathlib.Tactic

/-!
# The screen buffer

`screen_write` of `screen.c` puts a string into `new_screen` character by character.  Only a
newline looks at the size of the grid; `screen_write_inside_iff` says which strings stay in it.

Memory is indexed from `new_screen` on, also on its other side, and the state keeps the indices
written.
-/

namespace Screen

def screenWidth : Int := 80

def screenHeight : Int := 50

def screenCmdBegin : Nat := 21

def screenLoc (x y : Int) : Int := y * screenWidth + x

/-- Memory around `new_screen`, the cursor of the running process, and the indices written. -/
structure State where
  mem : Int → UInt8
  cursorX : Int
  cursorY : Int
  written : List Int

/-! ## The code -/

/-- A byte is stored. -/
def store (i : Int) (v : UInt8) (s : State) : State :=
  { s with mem := fun j => if j = i then v else s.mem j, written := s.written ++ [i] }

def memset : Nat → Int → UInt8 → State → State
  | 0, _, _, s => s
  | len + 1, dest, val, s => memset len (dest + 1) val (store dest val s)

/-- `strncpy`, whose second loop fills the rest with zeros. -/
def strncpy : Nat → Int → Int → State → State
  | 0, _, _, s => s
  | n + 1, dest, src, s =>
    if s.mem src = 0 then memset (n + 1) dest 0 s
    else strncpy n (dest + 1) (src + 1) (store dest (s.mem src) s)

/-- The loop that moves the rows from `SCREEN_CMD_BEGIN` on, for so many rounds from row `i`. -/
def moveRows : Nat → Nat → State → State
  | 0, _, s => s
  | rounds + 1, i, s =>
    moveRows rounds (i + 1) (strncpy 80 (screenLoc 0 i) (screenLoc 0 (i + 1)) s)

def newline : UInt8 := 10

/-- `\b` and DEL. -/
def deletes (ch : UInt8) : Bool := ch = 8 || ch = 127

/-- The part of `screen_write_ch` for a newline in the last row. -/
def scroll (s : State) : State :=
  let s := moveRows (49 - screenCmdBegin) screenCmdBegin s
  let s := { s with cursorY := s.cursorY - 1 }
  memset 80 (screenLoc 0 (screenHeight - 1)) 32 s

/-- `screen_write_ch`. -/
def screenWriteCh (ch : UInt8) (s : State) : State :=
  if ch = newline then
    let s := { s with cursorX := 0, cursorY := s.cursorY + 1 }
    if s.cursorY = screenHeight then scroll s else s
  else if deletes ch then
    let s := { s with cursorX := s.cursorX - 1 }
    store (screenLoc s.cursorX s.cursorY) 32 s
  else
    let s := store (screenLoc s.cursorX s.cursorY) ch s
    { s with cursorX := s.cursorX + 1 }

def writeChars (chars : List UInt8) (s : State) : State :=
  chars.foldl (fun s ch => screenWriteCh ch s) s

/-- A string is given as what is in memory from its address on; where the list ends is a NUL. -/
def strlen : List UInt8 → Nat
  | [] => 0
  | c :: src => if c = 0 then 0 else strlen src + 1

/-- `screen_write`. -/
def screenWrite (buff : List UInt8) (s : State) : State := writeChars (buff.take (strlen buff)) s

/-! ## Inside the buffer -/

/-- An index of `new_screen`. -/
def InBuffer (i : Int) : Prop := 0 ≤ i ∧ i < 4000

structure InGrid (s : State) : Prop where
  x : 0 ≤ s.cursorX ∧ s.cursorX < screenWidth
  y : 0 ≤ s.cursorY ∧ s.cursorY < screenHeight

/-- The cursor is in the grid, and only bytes of the buffer have been written. -/
structure Inside (s : State) : Prop extends InGrid s where
  written : ∀ i ∈ s.written, InBuffer i

/-- The line a text ends in. -/
def lastLine (text : List UInt8) : List UInt8 := text.rtakeWhile (· ≠ newline)

/-- The column a text written from column `x` on ends in: each character of its last line moves
right, each deletion left. -/
def column (x : Int) (text : List UInt8) : Int :=
  (if newline ∈ text then 0 else x) + (lastLine text).countP (fun c => !deletes c) -
    (lastLine text).countP deletes

section Writes

variable {s : State}

/-- Nothing but bytes from `dest` on is written, and the cursor stays. -/
structure Fills (dest : Int) (n : Nat) (s s' : State) : Prop where
  x : s'.cursorX = s.cursorX
  y : s'.cursorY = s.cursorY
  written : ∀ i ∈ s'.written, i ∈ s.written ∨ dest ≤ i ∧ i < dest + n

theorem store_fills (i : Int) (v : UInt8) (s : State) : Fills i 1 s (store i v s) := by
  refine ⟨rfl, rfl, fun j hj => ?_⟩
  rcases List.mem_append.mp hj with hj | hj
  · exact .inl hj
  · cases List.mem_singleton.mp hj
    exact .inr ⟨le_refl _, by omega⟩

/-- One byte and then the rest. -/
theorem Fills.cons {dest : Int} {n : Nat} {s s₁ s₂ : State} (h : Fills dest 1 s s₁)
    (h' : Fills (dest + 1) n s₁ s₂) : Fills dest (n + 1) s s₂ := by
  refine ⟨h'.x.trans h.x, h'.y.trans h.y, fun i hi => ?_⟩
  rcases h'.written i hi with hi | ⟨hlo, hhi⟩
  · rcases h.written i hi with hi | ⟨hlo, hhi⟩
    · exact .inl hi
    · exact .inr ⟨hlo, by push_cast at hhi ⊢; omega⟩
  · exact .inr ⟨by omega, by push_cast; omega⟩

/-- `memset` writes its area, by induction on the length. -/
theorem memset_fills (val : UInt8) : ∀ (n : Nat) (dest : Int) (s : State),
    Fills dest n s (memset n dest val s) := by
  intro n
  induction n with
  | zero => exact fun _ _ => ⟨rfl, rfl, fun _ hi => .inl hi⟩
  | succ n ih => exact fun dest s => (store_fills dest val s).cons (ih (dest + 1) _)

/-- `strncpy` writes its area, by induction on the length. -/
theorem strncpy_fills : ∀ (n : Nat) (dest src : Int) (s : State),
    Fills dest n s (strncpy n dest src s) := by
  intro n
  induction n with
  | zero => exact fun _ _ _ => ⟨rfl, rfl, fun _ hi => .inl hi⟩
  | succ n ih =>
      intro dest src s
      unfold strncpy
      by_cases hnul : s.mem src = 0
      · rw [if_pos hnul]
        exact memset_fills 0 (n + 1) dest s
      · rw [if_neg hnul]
        exact (store_fills dest _ s).cons (ih (dest + 1) (src + 1) _)

/-- Moving the rows up writes inside the buffer, by induction on the rows. -/
theorem moveRows_fills : ∀ (rounds i : Nat) (s : State), i + rounds ≤ 50 →
    Fills 0 4000 s (moveRows rounds i s) := by
  intro rounds
  induction rounds with
  | zero => exact fun _ _ _ => ⟨rfl, rfl, fun _ hi => .inl hi⟩
  | succ rounds ih =>
      intro i s hi
      have hrow := strncpy_fills 80 (screenLoc 0 i) (screenLoc 0 (i + 1)) s
      have hrest := ih (i + 1) (strncpy 80 (screenLoc 0 i) (screenLoc 0 (i + 1)) s) (by omega)
      refine ⟨hrest.x.trans hrow.x, hrest.y.trans hrow.y, fun j hj => ?_⟩
      rcases hrest.written j hj with hj | hj
      · rcases hrow.written j hj with hj | ⟨hlo, hhi⟩
        · exact .inl hj
        · unfold screenLoc screenWidth at hlo hhi
          exact .inr ⟨by omega, by push_cast at hhi ⊢; omega⟩
      · exact .inr hj

/-- Scrolling writes to rows of the buffer, and takes the cursor up. -/
theorem scroll_spec (s : State) : (scroll s).cursorX = s.cursorX ∧
    (scroll s).cursorY = s.cursorY - 1 ∧ ∀ i ∈ (scroll s).written, i ∈ s.written ∨ InBuffer i := by
  unfold scroll
  have hmove := moveRows_fills (49 - screenCmdBegin) screenCmdBegin s (by decide)
  generalize moveRows (49 - screenCmdBegin) screenCmdBegin s = s₁ at hmove ⊢
  have hlast := memset_fills 32 80 (screenLoc 0 (screenHeight - 1))
    { s₁ with cursorY := s₁.cursorY - 1 }
  simp only
  generalize memset 80 (screenLoc 0 (screenHeight - 1)) 32
    { s₁ with cursorY := s₁.cursorY - 1 } = s₂ at hlast ⊢
  refine ⟨hlast.x.trans hmove.x, ?_, fun i hi => ?_⟩
  · rw [hlast.y, hmove.y]
  · rcases hlast.written i hi with hi | ⟨hlo, hhi⟩
    · rcases hmove.written i hi with hi | ⟨hlo, hhi⟩
      · exact .inl hi
      · exact .inr ⟨hlo, by push_cast at hhi; omega⟩
    · unfold screenLoc screenWidth screenHeight at hlo hhi
      exact .inr ⟨by omega, by push_cast at hhi; omega⟩

end Writes

/-! ## One character -/

section Character

variable {s : State} {ch : UInt8}

/-- The column behind a character. -/
def nextColumn (ch : UInt8) (x : Int) : Int :=
  if ch = newline then 0 else if deletes ch then x - 1 else x + 1

/-- A newline keeps in the buffer, also where it scrolls. -/
theorem screenWriteCh_newline (h : Inside s) : Inside (screenWriteCh newline s) := by
  obtain ⟨⟨_, hy⟩, hw⟩ := h
  unfold screenWriteCh
  rw [if_pos rfl]
  by_cases hbottom : s.cursorY + 1 = screenHeight
  · rw [if_pos hbottom]
    obtain ⟨hx', hy', hw'⟩ := scroll_spec { s with cursorX := 0, cursorY := s.cursorY + 1 }
    refine ⟨⟨?_, ?_⟩, fun i hi => (hw' i hi).elim (hw i) id⟩
    · rw [hx']
      exact (by decide : (0 : Int) ≤ 0 ∧ (0 : Int) < screenWidth)
    · rw [hy', Int.add_sub_cancel]
      exact hy
  · rw [if_neg hbottom]
    refine ⟨⟨?_, ?_⟩, hw⟩
    · exact (by decide : (0 : Int) ≤ 0 ∧ (0 : Int) < screenWidth)
    · unfold screenHeight at hy hbottom ⊢
      simp only
      omega

/-- The column behind a character. -/
theorem screenWriteCh_cursorX : (screenWriteCh ch s).cursorX = nextColumn ch s.cursorX := by
  unfold screenWriteCh nextColumn
  by_cases hnl : ch = newline
  · rw [if_pos hnl, if_pos hnl]
    by_cases hbottom : s.cursorY + 1 = screenHeight
    · rw [if_pos hbottom]
      exact (scroll_spec _).1
    · rw [if_neg hbottom]
  · rw [if_neg hnl, if_neg hnl]
    by_cases hdel : deletes ch = true
    · rw [if_pos hdel, if_pos hdel]
      rfl
    · rw [if_neg hdel, if_neg hdel]
      rfl

/-- A cell of the grid is in the buffer. -/
theorem inBuffer_screenLoc {x y : Int} (hx : 0 ≤ x ∧ x < screenWidth)
    (hy : 0 ≤ y ∧ y < screenHeight) : InBuffer (screenLoc x y) := by
  unfold screenWidth at hx
  unfold screenHeight at hy
  unfold InBuffer screenLoc screenWidth
  omega

/-- A character that leaves the cursor in its line writes inside. -/
theorem screenWriteCh_inside (h : Inside s)
    (hx : 0 ≤ nextColumn ch s.cursorX ∧ nextColumn ch s.cursorX < screenWidth) :
    Inside (screenWriteCh ch s) := by
  by_cases hnl : ch = newline
  · rw [hnl]
    exact screenWriteCh_newline h
  · unfold nextColumn at hx
    unfold screenWriteCh
    rw [if_neg hnl] at hx ⊢
    by_cases hdel : deletes ch = true
    · rw [if_pos hdel] at hx
      rw [if_pos hdel]
      refine ⟨⟨hx, h.y⟩, fun i hi => ?_⟩
      rcases List.mem_append.mp hi with hi | hi
      · exact h.written i hi
      · rw [List.mem_singleton.mp hi]
        exact inBuffer_screenLoc hx h.y
    · rw [if_neg hdel] at hx
      rw [if_neg hdel]
      refine ⟨⟨hx, h.y⟩, fun i hi => ?_⟩
      rcases List.mem_append.mp hi with hi | hi
      · exact h.written i hi
      · rw [List.mem_singleton.mp hi]
        exact inBuffer_screenLoc h.x h.y

end Character

/-! ## Whole strings -/

section Strings

variable {s : State}

theorem column_concat (x : Int) (text : List UInt8) (ch : UInt8) :
    column x (text ++ [ch]) = nextColumn ch (column x text) := by
  unfold column nextColumn lastLine
  by_cases hnl : ch = newline
  · rw [if_pos hnl, List.rtakeWhile_concat_neg _ _ _ (by simp [hnl])]
    simp [hnl]
  · have hmem : newline ∈ text ++ [ch] ↔ newline ∈ text := by simp [Ne.symm hnl]
    rw [if_neg hnl, List.rtakeWhile_concat_pos _ _ _ (by simp [hnl])]
    simp only [hmem, List.countP_append, List.countP_singleton]
    by_cases hdel : deletes ch = true
    · simp only [hdel, Bool.not_true, Bool.false_eq_true, if_false, if_true]
      push_cast
      omega
    · simp only [hdel, Bool.not_false, if_true]
      push_cast
      omega

theorem writeChars_concat (text : List UInt8) (ch : UInt8) (s : State) :
    writeChars (text ++ [ch]) s = screenWriteCh ch (writeChars text s) := by
  unfold writeChars
  rw [List.foldl_append]
  rfl

/-- The column behind a text, by induction on it from the end. -/
theorem writeChars_cursorX (text : List UInt8) (s : State) :
    (writeChars text s).cursorX = column s.cursorX text := by
  induction text using List.reverseRecOn with
  | nil => simp [writeChars, column, lastLine]
  | append_singleton text ch ih =>
      rw [writeChars_concat, screenWriteCh_cursorX, ih, column_concat]

theorem strlen_le (buff : List UInt8) : strlen buff ≤ buff.length := by
  induction buff with
  | nil => exact le_refl _
  | cons c src ih =>
      unfold strlen
      by_cases hc : c = 0
      · rw [if_pos hc]
        exact Nat.zero_le _
      · rw [if_neg hc]
        exact Nat.succ_le_succ ih

/-- **A string is written inside the buffer, with the cursor in the grid after every character,
exactly if no line of it runs out of the 80 columns on either side.** -/
theorem screen_write_inside_iff (hgrid : InGrid s) (hnone : s.written = []) (buff : List UInt8) :
    (∀ k ≤ strlen buff, Inside (writeChars (buff.take k) s)) ↔
      ∀ k ≤ strlen buff, 0 ≤ column s.cursorX (buff.take k) ∧
        column s.cursorX (buff.take k) < screenWidth := by
  constructor
  · intro hall k hk
    rw [← writeChars_cursorX]
    exact (hall k hk).x
  · intro hcol k
    induction k with
    | zero =>
        intro _
        refine ⟨hgrid, fun i hi => ?_⟩
        rw [show (writeChars (buff.take 0) s).written = s.written from rfl, hnone] at hi
        cases hi
    | succ k ih =>
        intro hk
        have hlen : k < buff.length := by
          have := strlen_le buff
          omega
        have hlast := hcol (k + 1) hk
        rw [← List.take_concat_get' buff k hlen] at hlast ⊢
        rw [column_concat, ← writeChars_cursorX] at hlast
        rw [writeChars_concat]
        exact screenWriteCh_inside (ih (by omega)) hlast

def blankScreen : State := ⟨fun _ => 32, 0, 0, []⟩

/-- `ab\b\n`. -/
theorem screen_write_inside_short : Inside (screenWrite [97, 98, 8, 10] blankScreen) :=
  (screen_write_inside_iff ⟨by decide, by decide⟩ rfl [97, 98, 8, 10]).mpr (by decide) 4 (by decide)

/-- A deletion in the first column writes in front of the buffer. -/
theorem screen_write_before : InGrid blankScreen ∧
    ¬ Inside (writeChars ([8].take 1) blankScreen) ∧ -1 ∈ (screenWrite [8] blankScreen).written :=
  ⟨⟨by decide, by decide⟩, fun h => absurd h.x.1 (by decide), by decide⟩

end Strings

end Screen
