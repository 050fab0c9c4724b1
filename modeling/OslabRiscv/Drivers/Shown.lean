import OslabRiscv.Drivers.Reflush

/-!
# What the terminal shows

As long as the processes write printable text that stays in its lines, the terminal shows
`old_screen` between any two calls, and `new_screen` behind a `screen_reflush`
(`terminal_shows`).
-/

namespace Screen

open Assembly (Word)
open Print Terminal Outcome

/-! ## The sequences -/

section Sequences

/-- A number that is printed with `%d`. -/
theorem numeralText_int {n : Nat} (hn : n < 2 ^ 32) :
    numeralText 10 false false 0 (intArg false (BitVec.ofInt 64 n)) = Terminal.digits n := by
  have harg : intArg false (BitVec.ofInt 64 n) = (n : Int) := by
    unfold intArg
    rw [if_neg (by decide), BitVec.ofInt_natCast, BitVec.toNat_ofNat]
    omega
  have hsign : sign false (n : Int) = [] := if_neg (by simp)
  have hmag : magnitude false (n : Int) = n := rfl
  rw [harg, numeralText, hsign, hmag, List.nil_append]
  unfold Terminal.digits chars
  refine List.map_congr_left fun d hd => ?_
  have hlt := Numerals.lt_of_mem_numeral (by decide) hd
  rw [digitChar_nat false (by omega), if_pos hlt]

/-- A 32-bit number has at most ten digits. -/
theorem length_digits_le {n : Nat} (hn : n < 2 ^ 32) :
    (Terminal.digits n).length ≤ 10 := by
  have hlen := Numerals.length_lowFirst_le (by decide : 1 < 10) (by decide : 0 < 10)
    (lt_trans hn (by norm_num))
  unfold Terminal.digits
  rw [List.length_map, Numerals.length_numeral]
  omega

/-- The directive `%d` prints the digits of a number. -/
theorem prints_int (n : Nat) (hn : n < 2 ^ 32) (va : List Word) (str : Word → List UInt8) :
    Prints .printk str (.directive ⟨none, false⟩ 'd'.toUInt8) (BitVec.ofInt 64 n :: va)
      (Terminal.digits n) va := by
  have hlen := length_digits_le hn
  have hcov : Copy.printk.Covers false (intArg false (BitVec.ofInt 64 n)) := by
    refine .inr ?_
    unfold intArg
    rw [if_neg (by decide)]
    omega
  rw [← numeralText_int hn] at hlen ⊢
  exact .int rfl hcov (lt_of_le_of_lt hlen (by decide))

/-- `%c` with an escape. -/
theorem prints_escape (va : List Word) (str : Word → List UInt8) :
    Prints .printk str (.directive ⟨none, false⟩ 'c'.toUInt8) (27 :: va) [27] va := .char

/-- A letter that is neither `0` nor `l` ends the flags. -/
theorem before_none {ch : UInt8} (h0 : ch ≠ '0'.toUInt8) (hl : ch ≠ 'l'.toUInt8) :
    (Flags.mk none false).Before ch :=
  ⟨fun _ h => (nomatch h), fun _ _ => h0, fun h => absurd rfl h, fun _ => hl⟩

/-- No digit is the null. -/
theorem mem_digits {n : Nat} : ∀ c ∈ Terminal.digits n, c ≠ 0 := by
  intro c hc
  obtain ⟨d, hd, rfl⟩ := List.mem_map.mp hc
  have hall : ∀ d : Nat, d < 10 → UInt8.ofNat (48 + d) ≠ 0 := by decide
  exact hall d (Numerals.lt_of_mem_numeral (by decide) hd)

/-- **The cursor sequence.** -/
theorem vt100MoveCursor_eq {x y : Nat} (hx : x < 2 ^ 32) (hy : y < 2 ^ 32) :
    vt100MoveCursor x y = .ok (moveTo y x) := by
  have hr : Renders .printk (fun _ => [])
      [.directive ⟨none, false⟩ 'c'.toUInt8, .plain '['.toUInt8,
        .directive ⟨none, false⟩ 'd'.toUInt8, .plain ';'.toUInt8,
        .directive ⟨none, false⟩ 'd'.toUInt8, .plain 'H'.toUInt8]
      [27, BitVec.ofInt 64 y, BitVec.ofInt 64 x]
      ([27] ++ (['['.toUInt8] ++ (Terminal.digits y ++ ([';'.toUInt8] ++ (Terminal.digits x ++
        (['H'.toUInt8] ++ [])))))) :=
    .cons (prints_escape _ _) (.cons .plain (.cons (prints_int y hy _ _) (.cons .plain
      (.cons (prints_int x hx _ _) (.cons .plain .nil)))))
  have hlenx := length_digits_le hx
  have hleny := length_digits_le hy
  have hnul : 0 ∉ moveTo y x := by
    unfold moveTo
    simp only [List.mem_cons, List.mem_append, List.not_mem_nil, or_false, not_or]
    exact ⟨by decide, by decide, fun h => mem_digits 0 h rfl, by decide,
      fun h => mem_digits 0 h rfl, by decide⟩
  refine vprint_renders ?_ hr ?_ hnul
  · have hc : (Piece.directive ⟨none, false⟩ 'c'.toUInt8).Ok :=
      ⟨by decide, before_none (by decide) (by decide)⟩
    have hd : (Piece.directive ⟨none, false⟩ 'd'.toUInt8).Ok :=
      ⟨by decide, before_none (by decide) (by decide)⟩
    intro p hp
    simp only [List.mem_cons, List.not_mem_nil, or_false] at hp
    rcases hp with rfl | rfl | rfl | rfl | rfl | rfl
    · exact hc
    · exact ⟨by decide, by decide⟩
    · exact hd
    · exact ⟨by decide, by decide⟩
    · exact hd
    · exact ⟨by decide, by decide⟩
  · simp only [List.length_append, List.length_singleton, List.length_nil]
    omega

/-- What `vt100_clear` sends. -/
theorem vt100Clear_eq : vt100Clear = .ok [27, '['.toUInt8, '2'.toUInt8, 'J'.toUInt8] := by
  decide +kernel

/-- What `vt100_hidden_cursor` sends. -/
theorem vt100HiddenCursor_eq : vt100HiddenCursor =
    .ok [27, '['.toUInt8, '?'.toUInt8, '2'.toUInt8, '5'.toUInt8, 'l'.toUInt8] := by
  decide +kernel

end Sequences

/-! ## Printable cells -/

section Cells

variable {s : State}

/-- Every cell of `new_screen` can be shown. -/
def Clean (s : State) : Prop := ∀ i, InBuffer i → isPrintable (s.mem i) = true

/-- A printable byte keeps the buffer clean. -/
theorem Clean.store (hs : Clean s) {i : Int} {v : UInt8} (hv : isPrintable v = true) :
    Clean (store i v s) := by
  intro k hk
  change isPrintable (if k = i then v else s.mem k) = true
  split
  · exact hv
  · exact hs k hk

/-- Filling with a printable byte, by induction on the length. -/
theorem memset_clean {val : UInt8} (hv : isPrintable val = true) : ∀ (n : Nat) (dest : Int)
    (s : State), Clean s → Clean (memset n dest val s) := by
  intro n
  induction n with
  | zero => exact fun _ _ hs => hs
  | succ n ih => exact fun dest s hs => ih (dest + 1) _ (hs.store hv)

/-- A row that is copied has no NUL in it. -/
theorem strncpy_clean : ∀ (n : Nat) (dest src : Int) (s : State), Clean s → 0 ≤ src →
    src + n ≤ 4000 → Clean (strncpy n dest src s) := by
  intro n
  induction n with
  | zero => exact fun _ _ _ hs _ _ => hs
  | succ n ih =>
    intro dest src s hs hlo hhi
    have hsrc := hs src ⟨hlo, by push_cast at hhi; omega⟩
    have hne : s.mem src ≠ 0 := by
      intro hzero
      rw [hzero] at hsrc
      exact absurd hsrc (by decide)
    unfold strncpy
    rw [if_neg hne]
    exact ih (dest + 1) (src + 1) _ (hs.store hsrc) (by omega) (by push_cast at hhi; omega)

/-- The rows that move up keep the buffer clean, by induction on the rows. -/
theorem moveRows_clean : ∀ (rounds i : Nat) (s : State), i + rounds ≤ 49 → Clean s →
    Clean (moveRows rounds i s) := by
  intro rounds
  induction rounds with
  | zero => exact fun _ _ _ hs => hs
  | succ rounds ih =>
    intro i s hi hs
    refine ih (i + 1) _ (by omega) (strncpy_clean 80 _ _ s hs ?_ ?_)
    · unfold screenLoc screenWidth
      omega
    · unfold screenLoc screenWidth
      push_cast
      omega

/-- `scroll` keeps the buffer clean. -/
theorem scroll_clean (hs : Clean s) : Clean (scroll s) := by
  have hmove := moveRows_clean (49 - screenCmdBegin) screenCmdBegin s (by decide) hs
  unfold scroll
  generalize moveRows (49 - screenCmdBegin) screenCmdBegin s = s₁ at hmove ⊢
  exact memset_clean (by decide) 80 _ { s₁ with cursorY := s₁.cursorY - 1 } hmove

/-- What may be written: characters that can be shown, newlines and deletions. -/
def IsText (ch : UInt8) : Prop := isPrintable ch = true ∨ ch = newline ∨ deletes ch = true

/-- A letter of a text keeps the buffer clean. -/
theorem screenWriteCh_clean {ch : UInt8} (hch : IsText ch) (hs : Clean s) :
    Clean (screenWriteCh ch s) := by
  unfold screenWriteCh
  by_cases hnl : ch = newline
  · rw [if_pos hnl]
    by_cases hbottom : s.cursorY + 1 = screenHeight
    · rw [if_pos hbottom]
      exact scroll_clean hs
    · rw [if_neg hbottom]
      exact hs
  · rw [if_neg hnl]
    by_cases hdel : deletes ch = true
    · rw [if_pos hdel]
      exact hs.store (by decide)
    · rw [if_neg hdel]
      exact hs.store ((hch.resolve_right (not_or.mpr ⟨hnl, hdel⟩)))

/-- A text that stays in its lines, written from column `x` on. -/
structure Stays (x : Int) (text : List UInt8) : Prop where
  chars : ∀ c ∈ text, IsText c
  column : ∀ k ≤ text.length, 0 ≤ column x (text.take k) ∧ column x (text.take k) < screenWidth

/-- A text that stays in its lines keeps the cursor inside and the buffer clean. -/
theorem writeChars_stays {text : List UInt8} (hs : Inside s) (hc : Clean s)
    (hf : Stays s.cursorX text) : Inside (writeChars text s) ∧ Clean (writeChars text s) := by
  have hall : ∀ k ≤ text.length,
      Inside (writeChars (text.take k) s) ∧ Clean (writeChars (text.take k) s) := by
    intro k
    induction k with
    | zero => exact fun _ => ⟨hs, hc⟩
    | succ k ih =>
      intro hk
      have hlast := hf.column (k + 1) hk
      obtain ⟨hin, hclean⟩ := ih (by omega)
      rw [← List.take_concat_get' text k (by omega)] at hlast ⊢
      rw [column_concat, ← writeChars_cursorX] at hlast
      rw [writeChars_concat]
      exact ⟨screenWriteCh_inside hin hlast,
        screenWriteCh_clean (hf.chars _ (List.getElem_mem _)) hclean⟩
  have hwhole := hall text.length le_rfl
  rwa [List.take_length] at hwhole

/-- Two places of the grid are two bytes. -/
theorem screenLoc_inj {i i' j j' : Nat} (hj : j < 80) (hj' : j' < 80)
    (h : screenLoc j i = screenLoc j' i') : i = i' ∧ j = j' := by
  unfold screenLoc screenWidth at h
  omega

/-- A cell of the grid is a byte of the buffer. -/
theorem inBuffer_loc {i j : Nat} (hi : i < 50) (hj : j < 80) : InBuffer (screenLoc j i) := by
  unfold InBuffer screenLoc screenWidth
  omega

/-- The places of the grid, row by row. -/
def places : List Int :=
  (List.range 50).flatMap fun i => (List.range 80).map fun j => screenLoc (j : Nat) (i : Nat)

/-- Clearing the screen is one loop over all cells. -/
theorem clearCells_eq (s : State) :
    clearCells s = places.foldl (fun s k => store k 32 s) s := by
  unfold clearCells places
  rw [List.foldl_flatMap]
  simp only [List.foldl_map]

/-- Every byte of the buffer is a cell. -/
theorem mem_places {k : Int} (hk : InBuffer k) : k ∈ places := by
  obtain ⟨hlo, hhi⟩ := hk
  refine List.mem_flatMap.mpr ⟨(k / 80).toNat, List.mem_range.mpr (by omega), ?_⟩
  refine List.mem_map.mpr ⟨(k % 80).toNat, List.mem_range.mpr (by omega), ?_⟩
  unfold screenLoc screenWidth
  omega

/-- Every cell is a byte of the buffer. -/
theorem inBuffer_places {k : Int} (hk : k ∈ places) : InBuffer k := by
  obtain ⟨i, hi, hk⟩ := List.mem_flatMap.mp hk
  obtain ⟨j, hj, rfl⟩ := List.mem_map.mp hk
  exact inBuffer_loc (List.mem_range.mp hi) (List.mem_range.mp hj)

/-- What a loop of stores has written, by induction on its places. -/
theorem foldl_store_spec : ∀ (ks : List Int) (s : State),
    (ks.foldl (fun s k => store k 32 s) s).written = s.written ++ ks ∧
      ∀ k, (ks.foldl (fun s k => store k 32 s) s).mem k = if k ∈ ks then 32 else s.mem k := by
  intro ks
  induction ks with
  | nil => exact fun s => ⟨(List.append_nil _).symm, fun _ => rfl⟩
  | cons k ks ih =>
    intro s
    obtain ⟨hwritten, hmem⟩ := ih (store k 32 s)
    refine ⟨?_, fun k' => ?_⟩
    · rw [List.foldl_cons, hwritten]
      exact List.append_assoc ..
    · rw [List.foldl_cons, hmem]
      by_cases hin : k' ∈ ks
      · rw [if_pos hin, if_pos (List.mem_cons_of_mem _ hin)]
      · rw [if_neg hin]
        change (if k' = k then 32 else s.mem k') = _
        by_cases heq : k' = k
        · rw [if_pos heq, if_pos (by rw [heq]; exact List.mem_cons_self)]
        · rw [if_neg heq, if_neg fun h => (List.mem_cons.mp h).elim heq hin]

/-- Clearing leaves blanks. -/
theorem clearCells_spec (hs : ∀ i ∈ s.written, InBuffer i) :
    (∀ i ∈ (clearCells s).written, InBuffer i) ∧
      ∀ k, InBuffer k → (clearCells s).mem k = 32 := by
  obtain ⟨hwritten, hmem⟩ := foldl_store_spec places s
  rw [clearCells_eq]
  refine ⟨fun i hi => ?_, fun k hk => ?_⟩
  · rw [hwritten, List.mem_append] at hi
    exact hi.elim (hs i) inBuffer_places
  · rw [hmem, if_pos (mem_places hk)]

end Cells

/-! ## Refreshing -/

section Refresh

variable {d : Display} {t : Term} {i j : Nat}

/-- The terminal is large enough and takes text, and the cells that are not to be sent are shown. -/
structure Due (d : Display) (t : Term) : Prop where
  ground : t.mode = .ground
  rows : 50 ≤ t.rows
  cols : 80 ≤ t.cols
  clean : Clean d.screen
  cells : ∀ i j : Nat, i < 50 → j < 80 → d.screen.mem (screenLoc j i) = d.old (screenLoc j i) →
    t.cell (i + 1) (j + 1) = d.screen.mem (screenLoc j i)

/-- Some cells have been sent. -/
structure Refreshed (d d' : Display) : Prop where
  screen : d'.screen = d.screen
  running : d'.running = d.running
  cursors : d'.cursors = d.cursors
  old : ∀ k, d.old k = d.screen.mem k → d'.old k = d.screen.mem k

theorem Refreshed.refl (d : Display) : Refreshed d d := ⟨rfl, rfl, rfl, fun _ h => h⟩

theorem Refreshed.trans {d d₁ d₂ : Display} (h : Refreshed d d₁) (h' : Refreshed d₁ d₂) :
    Refreshed d d₂ where
  screen := h'.screen.trans h.screen
  running := h'.running.trans h.running
  cursors := h'.cursors.trans h.cursors
  old k hk := by
    have hnext := h'.old k ((h.old k hk).trans (by rw [h.screen]))
    rwa [h.screen] at hnext

/-- A loop that sends cells: what `f` achieves at each `a` is not undone by the others. -/
theorem foldlM_refresh {α : Type} {f : α → Sent → Except Fault Sent} {Q : α → Display → Prop}
    (hQ : ∀ a d d', Q a d → Refreshed d d' → Q a d') : ∀ (as : List α),
    (∀ a ∈ as, ∀ p : Sent, Due p.2 (feed p.1 t) → ∃ p', f a p = .ok p' ∧
      Due p'.2 (feed p'.1 t) ∧ Refreshed p.2 p'.2 ∧ Q a p'.2) →
    ∀ p : Sent, Due p.2 (feed p.1 t) → ∃ p', as.foldlM (fun p a => f a p) p = .ok p' ∧
      Due p'.2 (feed p'.1 t) ∧ Refreshed p.2 p'.2 ∧ ∀ a ∈ as, Q a p'.2 := by
  intro as
  induction as with
  | nil =>
    intro _ p hp
    exact ⟨p, rfl, hp, .refl _, fun _ h => absurd h List.not_mem_nil⟩
  | cons a as ih =>
    intro hf p hp
    obtain ⟨p₁, hp₁, hdue₁, href₁, hq⟩ := hf a List.mem_cons_self p hp
    obtain ⟨p₂, hp₂, hdue₂, href₂, hall⟩ :=
      ih (fun b hb => hf b (List.mem_cons_of_mem _ hb)) p₁ hdue₁
    refine ⟨p₂, ?_, hdue₂, href₁.trans href₂, List.forall_mem_cons.mpr ⟨hQ a _ _ hq href₂, hall⟩⟩
    rw [List.foldlM_cons, hp₁]
    exact hp₂

/-- The cell has been sent. -/
def Done (i j : Nat) (d : Display) : Prop := d.old (screenLoc j i) = d.screen.mem (screenLoc j i)

/-- A cell that has been sent stays right while others are sent. -/
theorem Done.kept {d d' : Display} (h : Done i j d) (hr : Refreshed d d') : Done i j d' := by
  unfold Done
  rw [hr.screen]
  exact hr.old _ h

/-- One cell is sent if it has changed. -/
theorem reflushCell_spec {p : Sent} (hi : i < 50) (hj : j < 80) (hp : Due p.2 (feed p.1 t)) :
    ∃ p', reflushCell i j p = .ok p' ∧ Due p'.2 (feed p'.1 t) ∧ Refreshed p.2 p'.2 ∧
      Done i j p'.2 := by
  obtain ⟨out, d⟩ := p
  set loc := screenLoc j i with hloc
  by_cases hsame : d.screen.mem loc = d.old loc
  · exact ⟨(out, d), if_neg (not_not_intro hsame), hp, .refl _, hsame.symm⟩
  · have hmove : vt100MoveCursor ((j : Int) + 1) ((i : Int) + 1) = .ok (moveTo (i + 1) (j + 1)) :=
      vt100MoveCursor_eq (x := j + 1) (y := i + 1) (by omega) (by omega)
    have hprint := hp.clean loc (inBuffer_loc hi hj)
    have hrows : 50 ≤ (feed out t).rows := hp.rows
    have hcols : 80 ≤ (feed out t).cols := hp.cols
    have hplace := feed_place (t := feed out t) hp.ground (⟨by omega, by omega⟩ : 0 < i + 1 ∧ _)
      (⟨by omega, by omega⟩ : 0 < j + 1 ∧ _) hprint
    refine ⟨(out ++ moveTo (i + 1) (j + 1) ++ [d.screen.mem loc],
      { d with old := fun k => if k = loc then d.screen.mem loc else d.old k }), ?_, ?_, ?_, ?_⟩
    · unfold reflushCell
      simp only
      rw [if_pos hsame, hmove]
      rfl
    · simp only
      rw [List.append_assoc, feed_append, hplace]
      refine ⟨hp.ground, hp.rows, hp.cols, hp.clean, fun i' j' hi' hj' heq => ?_⟩
      change (if i' + 1 = i + 1 ∧ j' + 1 = j + 1 then d.screen.mem loc
        else (feed out t).cell (i' + 1) (j' + 1)) = d.screen.mem (screenLoc j' i')
      by_cases hplace : i' = i ∧ j' = j
      · obtain ⟨rfl, rfl⟩ := hplace
        exact if_pos ⟨rfl, rfl⟩
      · have hne : screenLoc j' i' ≠ loc := by
          intro h
          obtain ⟨rfl, rfl⟩ := screenLoc_inj hj' hj h
          exact hplace ⟨rfl, rfl⟩
        change d.screen.mem (screenLoc j' i') =
          (if screenLoc j' i' = loc then d.screen.mem loc else d.old (screenLoc j' i')) at heq
        rw [if_neg hne] at heq
        rw [if_neg (by omega)]
        exact hp.cells i' j' hi' hj' heq
    · refine ⟨rfl, rfl, rfl, fun k hk => ?_⟩
      change (if k = loc then d.screen.mem loc else d.old k) = d.screen.mem k
      by_cases heq : k = loc
      · rw [if_pos heq, heq]
      · rw [if_neg heq]
        exact hk
    · exact if_pos rfl

/-- The cursor on the terminal behind a refresh: `screen_reflush` counts from zero. -/
structure CursorAt (x y : Int) (t : Term) : Prop where
  row : (t.row : Int) = max y 1
  col : (t.col : Int) = max x 1

/-- What the terminal shows is `old_screen`. -/
structure Synced (d : Display) (t : Term) : Prop where
  ground : t.mode = .ground
  rows : 50 ≤ t.rows
  cols : 80 ≤ t.cols
  cells : ∀ i j : Nat, i < 50 → j < 80 → t.cell (i + 1) (j + 1) = d.old (screenLoc j i)

/-- The terminal shows `new_screen`. -/
def Shows (t : Term) (s : State) : Prop :=
  ∀ i j : Nat, i < 50 → j < 80 → t.cell (i + 1) (j + 1) = s.mem (screenLoc j i)

/-- `screen_reflush` leaves the terminal with the screen and the cursor. -/
theorem screenReflush_spec (hd : Due d t) (hgrid : InGrid d.screen) :
    ∃ p, screenReflush d = .ok p ∧ p.2.screen = d.screen ∧ p.2.running = d.running ∧
      p.2.cursors = d.cursors ∧ Synced p.2 (feed p.1 t) ∧ Shows (feed p.1 t) d.screen ∧
      CursorAt d.screen.cursorX d.screen.cursorY (feed p.1 t) := by
  have hrows : ∀ i ∈ List.range 50, ∀ p : Sent, Due p.2 (feed p.1 t) → ∃ p', reflushRow i p = .ok p' ∧
      Due p'.2 (feed p'.1 t) ∧ Refreshed p.2 p'.2 ∧ ∀ j ∈ List.range 80, Done i j p'.2 :=
    fun i hi p hp => foldlM_refresh (f := reflushCell i) (Q := Done i)
      (fun _ _ _ h hr => h.kept hr) (List.range 80)
      (fun j hj p hp => reflushCell_spec (List.mem_range.mp hi) (List.mem_range.mp hj) hp) p hp
  obtain ⟨p, hp, hdue, href, hdone⟩ := foldlM_refresh (f := reflushRow)
    (Q := fun i d => ∀ j ∈ List.range 80, Done i j d)
    (fun _ _ _ h hr j hj => (h j hj).kept hr) (List.range 50) hrows ([], d) hd
  obtain ⟨⟨hx0, hx1⟩, hy0, hy1⟩ := hgrid
  unfold screenWidth at hx1
  unfold screenHeight at hy1
  obtain ⟨x, hx⟩ := Int.eq_ofNat_of_zero_le hx0
  obtain ⟨y, hy⟩ := Int.eq_ofNat_of_zero_le hy0
  have hmove : vt100MoveCursor p.2.screen.cursorX p.2.screen.cursorY = .ok (moveTo y x) := by
    rw [href.screen]
    change vt100MoveCursor d.screen.cursorX d.screen.cursorY = _
    rw [hx, hy]
    exact vt100MoveCursor_eq (by omega) (by omega)
  have hcells : ∀ i j : Nat, i < 50 → j < 80 → (feed p.1 t).cell (i + 1) (j + 1) =
      d.screen.mem (screenLoc j i) ∧ p.2.old (screenLoc j i) = d.screen.mem (screenLoc j i) := by
    intro i j hi hj
    have hsent := hdone i (List.mem_range.mpr hi) j (List.mem_range.mpr hj)
    have hshown := hdue.cells i j hi hj hsent.symm
    unfold Done at hsent
    rw [href.screen] at hshown hsent
    exact ⟨hshown, hsent⟩
  have hlast := feed_moveTo hdue.ground y x
  refine ⟨(p.1 ++ moveTo y x, p.2), ?_, href.screen, href.running, href.cursors, ?_, ?_, ?_⟩
  · unfold screenReflush
    rw [hp]
    change (vt100MoveCursor p.2.screen.cursorX p.2.screen.cursorY >>= _) = _
    rw [hmove]
    rfl
  · rw [feed_append, hlast]
    refine ⟨hdue.ground, hdue.rows, hdue.cols, fun i j hi hj => ?_⟩
    obtain ⟨hshown, hsent⟩ := hcells i j hi hj
    exact hshown.trans hsent.symm
  · rw [feed_append, hlast]
    exact fun i j hi hj => (hcells i j hi hj).1
  · rw [feed_append, hlast, hx, hy]
    have hrow := hdue.rows
    have hcol := hdue.cols
    refine ⟨?_, ?_⟩
    · change ((clip y (feed p.1 t).rows : Nat) : Int) = _
      unfold clip
      omega
    · change ((clip x (feed p.1 t).cols : Nat) : Int) = _
      unfold clip
      omega

end Refresh

/-! ## Calls -/

section Calls

variable {x : Display × Term}

/-- A cursor in the grid. -/
def OnGrid (c : Int × Int) : Prop :=
  (0 ≤ c.1 ∧ c.1 < screenWidth) ∧ 0 ≤ c.2 ∧ c.2 < screenHeight

/-- Only cells of the buffer have been written, all of them can be shown, and every process has its
cursor in the grid. -/
structure Ready (d : Display) : Prop where
  inside : Inside d.screen
  clean : Clean d.screen
  others : ∀ p, OnGrid (d.cursors p)

/-- What holds between two calls. -/
structure Kept (x : Display × Term) : Prop where
  ready : Ready x.1
  synced : Synced x.1 x.2

/-- What the processes see to: texts that stay in their lines, and cursors in the grid. -/
def Allowed (x : Display × Term) : Op → Prop
  | .write buff => Stays x.1.screen.cursorX (buff.take (strlen buff))
  | .move cx cy => OnGrid (cx, cy)
  | .printk str fmt va => ∃ ps broken text, Apart fmt ps broken ∧
    Renders .printk str ps va text ∧ Stays x.1.screen.cursorX (text.take 255)
  | _ => True

/-- Between two calls the cells that are not to be sent are shown. -/
theorem Kept.due (h : Kept x) : Due x.1 x.2 where
  ground := h.synced.ground
  rows := h.synced.rows
  cols := h.synced.cols
  clean := h.ready.clean
  cells i j hi hj heq := (h.synced.cells i j hi hj).trans heq.symm

/-- A refresh leaves the display ready. -/
theorem Ready.of_screen {d d' : Display} (h : Ready d) (hs : d'.screen = d.screen)
    (hc : d'.cursors = d.cursors) : Ready d' := by
  refine ⟨?_, ?_, ?_⟩
  · rw [hs]
    exact h.inside
  · rw [hs]
    exact h.clean
  · rw [hc]
    exact h.others

/-- A refresh behind some change of `new_screen`. -/
theorem reflush_kept {d : Display} {t : Term} (hd : Ready d) (hdue : Due d t) :
    ∃ p, screenReflush d = .ok p ∧ Kept (p.2, feed p.1 t) ∧ p.2.screen = d.screen ∧
      Shows (feed p.1 t) d.screen ∧ CursorAt d.screen.cursorX d.screen.cursorY (feed p.1 t) := by
  obtain ⟨p, hp, hscreen, _, hcursors, hsync, hshow, hcursor⟩ :=
    screenReflush_spec hdue hd.inside.toInGrid
  exact ⟨p, hp, ⟨hd.of_screen hscreen hcursors, hsync⟩, hscreen, hshow, hcursor⟩

/-- A text has no null before its end. -/
theorem strlen_stays {c : Int} {text : List UInt8} (h : Stays c text) :
    strlen text = text.length := by
  refine strlen_eq_length fun hzero => ?_
  rcases h.chars 0 hzero with hz | hz | hz <;> exact absurd hz (by decide)

/-- `screen_write` leaves the display ready. -/
theorem write_ready {d : Display} {buff : List UInt8} (hd : Ready d)
    (hf : Stays d.screen.cursorX (buff.take (strlen buff))) : Ready (write buff d) := by
  obtain ⟨hin, hclean⟩ := writeChars_stays hd.inside hd.clean hf
  exact ⟨hin, hclean, hd.others⟩

/-- Writing to the buffer leaves a refresh due. -/
theorem Due.of_screen {d : Display} {t : Term} (h : Synced d t) {s : State} (hs : Clean s) :
    Due { d with screen := s } t where
  ground := h.ground
  rows := h.rows
  cols := h.cols
  clean := hs
  cells i j hi hj heq := (h.cells i j hi hj).trans heq.symm

/-- A refresh, with the terminal behind it. -/
theorem showing_eq {r : Except Fault Sent} {p : Sent} (h : r = .ok p) (t : Term) :
    showing r t = .ok (p.2, feed p.1 t) := by
  rw [h]
  rfl

/-- `printk` shows its text at once. -/
theorem printk_kept {str : Word → List UInt8} {fmt text : List UInt8} {va : List Word}
    {ps : List Piece} {broken : Option Flags} (h : Kept x) (hapart : Apart fmt ps broken)
    (hr : Renders .printk str ps va text) (hstays : Stays x.1.screen.cursorX (text.take 255)) :
    ∃ y, call (.printk str fmt va) x = .ok y ∧ Kept y ∧
      y.1.screen = writeChars (text.take 255) x.1.screen ∧ Shows y.2 y.1.screen := by
  obtain ⟨d, t⟩ := x
  obtain ⟨rfl, hok, hbroken⟩ := hapart
  have hlen := strlen_stays hstays
  have hprint : vprint .printk str (formatBytes ps broken) va = .ok (text.take 255) := by
    unfold vprint
    rw [miniVsnprintf_renders hok hbroken hr]
    change Except.ok ((text.take 255).take (strlen (text.take 255))) = _
    rw [hlen, List.take_length]
  have hwhole : (text.take 255).take (strlen (text.take 255)) = text.take 255 := by
    rw [hlen, List.take_length]
  have hready : Ready (write (text.take 255) d) := by
    refine write_ready h.ready ?_
    rw [hwhole]
    exact hstays
  obtain ⟨p, hp, hkept, hscreen, hshow, _⟩ :=
    reflush_kept hready (Due.of_screen h.synced hready.clean)
  refine ⟨(p.2, feed p.1 t), ?_, hkept, ?_, ?_⟩
  · unfold call perform printk showing
    simp only [hprint]
    change Except.map _ (screenReflush (write (text.take 255) d)) = _
    rw [hp]
    rfl
  · rw [hscreen]
    change screenWrite (text.take 255) d.screen = _
    unfold screenWrite
    rw [hwhole]
  · change Shows (feed p.1 t) p.2.screen
    rw [hscreen]
    exact hshow

/-- The cells are all blank behind `screen_clear`. -/
theorem clear_ready {d : Display} (hd : ∀ p, OnGrid (d.cursors p))
    (hs : ∀ i ∈ d.screen.written, InBuffer i) :
    Ready (cleared d) ∧ ∀ k, InBuffer k → (cleared d).screen.mem k = 32 := by
  obtain ⟨hwritten, hblank⟩ := clearCells_spec hs
  have hx : (0 : Int) ≤ 0 ∧ (0 : Int) < screenWidth := by decide
  have hy : (0 : Int) ≤ 0 ∧ (0 : Int) < screenHeight := by decide
  refine ⟨⟨⟨⟨hx, hy⟩, hwritten⟩, fun k hk => ?_, hd⟩, hblank⟩
  have hmem : (cleared d).screen.mem k = 32 := hblank k hk
  rw [hmem]
  decide

/-- **One call.** -/
theorem call_kept {op : Op} (h : Kept x) (hal : Allowed x op) : ∃ y, call op x = .ok y ∧ Kept y := by
  obtain ⟨d, t⟩ := x
  cases op with
  | write buff =>
    have hready := write_ready h.ready hal
    exact ⟨(write buff d, t), rfl, hready,
      h.synced.ground, h.synced.rows, h.synced.cols, h.synced.cells⟩
  | clear =>
    obtain ⟨hready, _⟩ := clear_ready h.ready.others h.ready.inside.written
    obtain ⟨p, hp, hkept, _⟩ := reflush_kept hready (Due.of_screen h.synced hready.clean)
    exact ⟨_, showing_eq hp t, hkept⟩
  | move cx cy =>
    obtain ⟨⟨hx0, hx1⟩, hy0, hy1⟩ := hal
    obtain ⟨nx, hx⟩ := Int.eq_ofNat_of_zero_le hx0
    obtain ⟨ny, hy⟩ := Int.eq_ofNat_of_zero_le hy0
    simp only at hx hy hx1 hy1
    unfold screenWidth at hx1
    unfold screenHeight at hy1
    have hmove : vt100MoveCursor cx cy = .ok (moveTo ny nx) := by
      rw [hx, hy]
      exact vt100MoveCursor_eq (by omega) (by omega)
    have hfeed := feed_moveTo h.synced.ground ny nx
    refine ⟨({ d with screen := { d.screen with cursorX := cx, cursorY := cy } },
      feed (moveTo ny nx) t), ?_, ⟨⟨⟨⟨hx0, ?_⟩, ⟨hy0, ?_⟩⟩, h.ready.inside.written⟩, h.ready.clean,
        h.ready.others⟩, ?_⟩
    · unfold call perform screenMoveCursor showing
      simp only [hmove]
      rfl
    · unfold screenWidth
      exact hx1
    · unfold screenHeight
      exact hy1
    · rw [hfeed]
      exact ⟨h.synced.ground, h.synced.rows, h.synced.cols, h.synced.cells⟩
  | reflush =>
    obtain ⟨p, hp, hkept, _⟩ := reflush_kept h.ready h.due
    exact ⟨_, showing_eq hp t, hkept⟩
  | printk str fmt va =>
    obtain ⟨ps, broken, text, hapart, hr, hstays⟩ := hal
    obtain ⟨y, hy, hkept, _⟩ := printk_kept h hapart hr hstays
    exact ⟨y, hy, hkept⟩
  | run p =>
    have hcursors : ∀ q, OnGrid (Function.update d.cursors d.running
        (d.screen.cursorX, d.screen.cursorY) q) := by
      intro q
      by_cases hq : q = d.running
      · rw [hq, Function.update_self]
        exact ⟨h.ready.inside.x, h.ready.inside.y⟩
      · rw [Function.update_of_ne hq]
        exact h.ready.others q
    have hown := hcursors p
    exact ⟨(run p d, t), rfl, ⟨⟨⟨hown.1, hown.2⟩, h.ready.inside.written⟩, h.ready.clean, hcursors⟩,
      h.synced.ground, h.synced.rows, h.synced.cols, h.synced.cells⟩

/-! ## Runs -/

/-- A terminal in its text mode, and the screens as they are at the start: `old_screen` is zero. -/
structure Fresh (d : Display) (t : Term) : Prop where
  ground : t.mode = .ground
  rows : 50 ≤ t.rows
  cols : 80 ≤ t.cols
  written : d.screen.written = []
  old : ∀ k, d.old k = 0
  others : ∀ p, OnGrid (d.cursors p)

/-- What `init_screen` does, in one step. -/
theorem initScreen_eq (d : Display) : initScreen d = (screenReflush (cleared d)).map fun p =>
    (([27, '['.toUInt8, '?'.toUInt8, '2'.toUInt8, '5'.toUInt8, 'l'.toUInt8] ++
      [27, '['.toUInt8, '2'.toUInt8, 'J'.toUInt8]) ++ p.1, p.2) := by
  unfold initScreen screenClear
  rw [vt100HiddenCursor_eq, vt100Clear_eq]
  cases screenReflush (cleared d) <;> rfl

/-- From a fresh terminal, `init_screen` sets up what holds between two calls. -/
theorem initScreen_kept {d : Display} {t : Term} (h : Fresh d t) :
    ∃ y, showing (initScreen d) t = .ok y ∧ Kept y ∧ y.1.screen = (cleared d).screen := by
  obtain ⟨hready, hblank⟩ := clear_ready h.others (by
    rw [h.written]
    exact fun _ hk => absurd hk List.not_mem_nil)
  have hhide := feed_hide h.ground
  have hclear := feed_clear h.ground
  -- no cell of `old_screen` is a blank, so every cell is sent
  have hdue : Due (cleared d)
      (feed ([27, '['.toUInt8, '?'.toUInt8, '2'.toUInt8, '5'.toUInt8, 'l'.toUInt8] ++
        [27, '['.toUInt8, '2'.toUInt8, 'J'.toUInt8]) t) := by
    rw [feed_append, hhide, hclear]
    refine ⟨h.ground, h.rows, h.cols, hready.clean, fun i j hi hj heq => ?_⟩
    rw [hblank _ (inBuffer_loc hi hj)] at heq
    exact absurd (heq.trans (h.old _)) (by decide)
  obtain ⟨p, hp, hkept, hscreen, _⟩ := reflush_kept hready hdue
  rw [← feed_append] at hkept
  refine ⟨_, ?_, hkept, hscreen⟩
  unfold showing
  rw [initScreen_eq, hp]
  rfl

/-- A run of calls keeps it, by induction. -/
theorem run_kept {ops : List Op} (h : Kept x) (hops : AllSteps call Allowed ops x) :
    ∃ y, Outcome.run call ops x = .ok y ∧ Kept y := by
  obtain ⟨y, hy⟩ := run_returns (J := fun ops x => Kept x ∧ AllSteps call Allowed ops x)
    (fun x op ops hJ => by
      obtain ⟨y, hy, hkept⟩ := call_kept hJ.1 hJ.2.head
      exact ⟨y, hy, hkept, hJ.2.tail hy⟩) ops x ⟨h, hops⟩
  refine ⟨y, hy, run_invariant (I := Kept) (fun x op x' hx hal hstep => ?_) ops x y h hops hy⟩
  obtain ⟨z, hz, hkept⟩ := call_kept hx hal
  rw [hz] at hstep
  cases hstep
  exact hkept

/-- **What the terminal shows.**  From `init_screen` on, in whatever order the processes write,
print, clear, move their cursors and are switched, the terminal shows `old_screen`; and behind a
`screen_reflush` it shows `new_screen`. -/
theorem terminal_shows {d : Display} {t : Term} {ops : List Op} (h : Fresh d t)
    (hx : showing (initScreen d) t = .ok x) (hops : AllSteps call Allowed ops x) :
    ∃ y, Outcome.run call ops x = .ok y ∧ Synced y.1 y.2 ∧
      ∃ z, call .reflush y = .ok z ∧ z.1.screen = y.1.screen ∧ Shows z.2 y.1.screen := by
  obtain ⟨x', hx', hkept, _⟩ := initScreen_kept h
  rw [hx'] at hx
  cases hx
  obtain ⟨y, hy, hkept'⟩ := run_kept hkept hops
  obtain ⟨p, hp, _, hscreen, hshow, _⟩ := reflush_kept hkept'.ready hkept'.due
  exact ⟨y, hy, hkept'.synced, (p.2, feed p.1 y.2), showing_eq hp y.2, hscreen, hshow⟩

def freshDisplay : Display := ⟨⟨fun _ => 0, 0, 0, []⟩, fun _ => 0, 0, fun _ => (0, 0)⟩

def freshTerm : Term := ⟨50, 80, fun _ _ => 35, 1, 1, false, .ground⟩

/-- The sample display and its terminal are fresh. -/
theorem fresh_freshDisplay : Fresh freshDisplay freshTerm :=
  ⟨rfl, le_rfl, le_rfl, rfl, fun _ => rfl,
    fun _ => (⟨by decide, by decide⟩ : OnGrid (0, 0))⟩

/-- A run from the sample display, as the terminal shows it. -/
theorem terminal_shows_fresh : ∃ x, showing (initScreen freshDisplay) freshTerm = .ok x ∧
    ∃ y, Outcome.run call [.run 1, .move 3 4] x = .ok y ∧ Synced y.1 y.2 ∧
      ∃ z, call .reflush y = .ok z ∧ z.1.screen = y.1.screen ∧ Shows z.2 y.1.screen := by
  obtain ⟨x, hx, _⟩ := initScreen_kept fresh_freshDisplay
  refine ⟨x, hx, terminal_shows fresh_freshDisplay hx ⟨trivial, ?_, ?_⟩⟩
  · exact (⟨by decide, by decide⟩ : OnGrid (3, 4))
  · cases call (.move 3 4) (run 1 x.1, feed [] x.2) <;> trivial

/-- **What `printk` shows.**  At any time its text, cut off behind 255 characters, is written from
the cursor on and is on the terminal when it returns. -/
theorem printk_shown {d : Display} {t : Term} {ops : List Op} {y : Display × Term}
    {str : Word → List UInt8} {fmt text : List UInt8} {va : List Word} {ps : List Piece}
    {broken : Option Flags} (h : Fresh d t) (hx : showing (initScreen d) t = .ok x)
    (hops : AllSteps call Allowed ops x) (hy : Outcome.run call ops x = .ok y)
    (hapart : Apart fmt ps broken) (hr : Renders .printk str ps va text)
    (hstays : Stays y.1.screen.cursorX (text.take 255)) :
    ∃ z, call (.printk str fmt va) y = .ok z ∧
      z.1.screen = writeChars (text.take 255) y.1.screen ∧ Shows z.2 z.1.screen := by
  obtain ⟨x', hx', hkept, _⟩ := initScreen_kept h
  rw [hx'] at hx
  cases hx
  obtain ⟨y', hy', hkept'⟩ := run_kept hkept hops
  rw [hy'] at hy
  cases hy
  obtain ⟨z, hz, _, hscreen, hshow⟩ := printk_kept hkept' hapart hr hstays
  exact ⟨z, hz, hscreen, hshow⟩

/-- A line is printed on the fresh screen. -/
theorem printk_shown_fresh : ∃ y z, showing (initScreen freshDisplay) freshTerm = .ok y ∧
    call (.printk (fun _ => []) [72, 105, 10] []) y = .ok z ∧
      z.1.screen = writeChars [72, 105, 10] y.1.screen ∧ Shows z.2 z.1.screen := by
  obtain ⟨y, hy, _, hscreen⟩ := initScreen_kept fresh_freshDisplay
  have hx : y.1.screen.cursorX = 0 := by
    rw [hscreen]
    rfl
  have hapart : Apart [72, 105, 10] [.plain 72, .plain 105, .plain 10] none := by
    refine ⟨rfl, fun p hp => ?_, fun _ h => by cases h⟩
    simp only [List.mem_cons, List.not_mem_nil, or_false] at hp
    rcases hp with rfl | rfl | rfl <;> exact ⟨by decide, by decide⟩
  have hr : Renders .printk (fun _ => []) [.plain 72, .plain 105, .plain 10] [] [72, 105, 10] :=
    .cons .plain (.cons .plain (.cons .plain .nil))
  have hstays : Stays y.1.screen.cursorX (List.take 255 [72, 105, 10]) := by
    rw [hx]
    refine ⟨fun c hc => ?_, by decide⟩
    fin_cases hc
    · exact .inl (by decide)
    · exact .inl (by decide)
    · exact .inr (.inl rfl)
  have hnone : AllSteps call Allowed [] y := trivial
  obtain ⟨z, hz⟩ := printk_shown fresh_freshDisplay hy hnone rfl hapart hr hstays
  exact ⟨y, z, hy, hz⟩

end Calls

end Screen
