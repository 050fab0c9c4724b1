import OslabRiscv.Lib.Outcome

/-!
# The shell's command line

The main loop of `shell.c` collects a line in `buffer`, `shell_parse` takes it apart into `arg`
and `get_cmd_id` looks for the first word in `bash_table`.  Four arrays have four bounds, and
none of the loops looks at its own: `shell_safe_iff` says which keys can be typed.

A string is given as what is in memory from its address on; where the list ends is a NUL.
-/

namespace Shell

open Outcome

def bufferLen : Nat := 80

def bashNum : Nat := 18

/-- An access outside of an array. -/
inductive Stop
  | outside
  deriving DecidableEq, Repr

/-! ## The code -/

def ascii (text : List Char) : List UInt8 := text.map Char.toUInt8

structure Entry where
  name : List UInt8
  paraNum : Nat
  deriving DecidableEq, Repr

def bashTable : List Entry := [
  ⟨ascii ['e', 'x', 'e', 'c'], 3⟩,
  ⟨ascii ['w', 'a', 'i', 't'], 1⟩,
  ⟨ascii ['k', 'i', 'l', 'l'], 1⟩,
  ⟨ascii ['e', 'x', 'i', 't'], 0⟩,
  ⟨ascii ['c', 'l', 'e', 'a', 'r'], 0⟩,
  ⟨ascii ['p', 's'], 0⟩,
  ⟨ascii ['t', 'a', 's', 'k', 's', 'e', 't'], 3⟩,
  ⟨ascii ['m', 'k', 'f', 's'], 0⟩,
  ⟨ascii ['s', 't', 'a', 't', 'f', 's'], 0⟩,
  ⟨ascii ['l', 's'], 0⟩,
  ⟨ascii ['m', 'k', 'd', 'i', 'r'], 1⟩,
  ⟨ascii ['r', 'm', 'd', 'i', 'r'], 1⟩,
  ⟨ascii ['c', 'd'], 1⟩,
  ⟨ascii ['t', 'o', 'u', 'c', 'h'], 1⟩,
  ⟨ascii ['c', 'a', 't'], 1⟩,
  ⟨ascii ['r', 'm'], 1⟩,
  ⟨ascii ['l', 'n'], 2⟩]

/-- `char_mode_t`. -/
inductive CharMode
  | enter
  | delete
  | legal
  | illegal
  deriving DecidableEq, Repr

def charParse (c : UInt8) : CharMode :=
  if c = 13 ∨ c = 10 then .enter
  else if c = 8 ∨ c = 127 then .delete
  else if c > 31 ∧ c < 127 then .legal
  else .illegal

def strcmp : List UInt8 → List UInt8 → Int
  | c :: str1, d :: str2 =>
    if c ≠ 0 ∧ d ≠ 0 then if c ≠ d then c.toNat - d.toNat else strcmp str1 str2
    else c.toNat - d.toNat
  | c :: _, [] => c.toNat
  | [], d :: _ => -d.toNat
  | [], [] => 0

/-- The loop of `get_cmd_id` from entry `i` on, for so many rounds. -/
def findCmd (shName : List UInt8) : Nat → Nat → Except Stop Int
  | 0, _ => .ok (-1)
  | rounds + 1, i =>
    match bashTable[i]? with
    | none => .error .outside
    | some e => if strcmp shName e.name = 0 then .ok i else findCmd shName rounds (i + 1)

def getCmdId (shName : List UInt8) : Except Stop Int := findCmd shName bashNum 0

/-- Store into `arg[6][16]`. -/
def setArg (i k : Nat) (c : UInt8) (arg : Nat → Nat → UInt8) : Except Stop (Nat → Nat → UInt8) :=
  if i < 6 ∧ k < 16 then .ok fun a o => if a = i ∧ o = k then c else arg a o
  else .error .outside

/-- The loop of `shell_parse`, with the NUL stored behind it. -/
def splitArgs : List UInt8 → Nat → Nat → (Nat → Nat → UInt8) →
    Except Stop (Nat × (Nat → Nat → UInt8))
  | [], i, k, arg => do
    let arg ← setArg i k 0 arg
    .ok (i, arg)
  | c :: parse, i, k, arg =>
    if c = 0 then do
      let arg ← setArg i k 0 arg
      .ok (i, arg)
    else if c ≠ 32 then do
      let arg ← setArg i k c arg
      splitArgs parse i (k + 1) arg
    else do
      let arg ← setArg i k 0 arg
      splitArgs parse (i + 1) 0 arg

/-- What is done with a line: one of two errors is printed, or a command is run. -/
inductive Action
  | unknown
  | unmatched
  | run (cmdId : Nat)
  deriving DecidableEq, Repr

/-- A call of `shell_parse`: its argument, and what it makes of it. -/
structure Parsed where
  cmdName : List UInt8
  i : Nat
  arg : Nat → Nat → UInt8
  cmdId : Int
  action : Action

/-- A row of `arg`, as a string. -/
def rowOf (arg : Nat → Nat → UInt8) (a : Nat) : List UInt8 := (List.range 16).map (arg a)

def shellParse (cmdName : List UInt8) : Except Stop Parsed := do
  let (i, arg) ← splitArgs cmdName 0 0 fun _ _ => 0
  let cmdId ← getCmdId (rowOf arg 0)
  if cmdId < 0 then .ok ⟨cmdName, i, arg, cmdId, .unknown⟩
  else
    match bashTable[cmdId.toNat]? with
    | none => .error .outside
    | some e =>
      if e.paraNum ≠ i ∧ cmdId ≠ 0 ∧ cmdId ≠ 6 ∧ cmdId ≠ 9 then
        .ok ⟨cmdName, i, arg, cmdId, .unmatched⟩
      else .ok ⟨cmdName, i, arg, cmdId, .run cmdId.toNat⟩

/-- The locals of `main`, the calls of `shell_parse` so far, and whether one ran `exit`. -/
structure State where
  buffer : Nat → UInt8
  index : Nat
  parsed : List Parsed
  exited : Bool

/-- Store into `buffer[BUFFER_LEN]`. -/
def setBuffer (i : Nat) (c : UInt8) (s : State) : Except Stop State :=
  if i < bufferLen then .ok { s with buffer := fun j => if j = i then c else s.buffer j }
  else .error .outside

/-- A round of the main loop, with the character that is read. -/
def readKey (c : UInt8) (s : State) : Except Stop State :=
  if s.exited then .ok s
  else
    match charParse c with
    | .enter => do
      let s ← setBuffer s.index 0 s
      let p ← shellParse ((List.range bufferLen).map s.buffer)
      .ok {
        buffer := fun j => if j < s.index then 0 else s.buffer j
        index := 0
        parsed := s.parsed ++ [p]
        exited := p.action = .run 3 }
    | .delete =>
      if s.index ≠ 0 then setBuffer (s.index - 1) 0 { s with index := s.index - 1 } else .ok s
    | .legal => do
      let s ← setBuffer s.index c s
      .ok { s with index := s.index + 1 }
    | .illegal => .ok s

def start : State := ⟨fun _ => 0, 0, [], false⟩

/-! ## What is asked of it -/

/-- The characters of a string. -/
def cString (mem : List UInt8) : List UInt8 := mem.takeWhile (· ≠ 0)

/-- The pieces of a line between single spaces. -/
def pieces (line : List UInt8) : List (List UInt8) := line.splitOn 32

/-- The index of the entry with a name, or -1. -/
def CommandRight (name : List UInt8) (cmdId : Int) : Prop :=
  (∃ (k : Nat) (e : Entry), bashTable[k]? = some e ∧ e.name = name ∧ cmdId = k) ∨
    ((∀ e ∈ bashTable, e.name ≠ name) ∧ cmdId = -1)

/-- The words are the pieces of the line, and the command is that of the first. -/
structure Parsed.Right (p : Parsed) : Prop where
  words : (List.range (p.i + 1)).map (fun a => cString (rowOf p.arg a)) = pieces (cString p.cmdName)
  command : CommandRight (cString (rowOf p.arg 0)) p.cmdId

/-- No access outside of an array, and every line is taken apart as it should be. -/
def ShellSafe (keys : List UInt8) : Prop :=
  ∃ t, run readKey keys start = .ok t ∧ ∀ p ∈ t.parsed, p.Right

/-! ## The line that is typed -/

/-- The line behind a key. -/
def edit (line : List UInt8) (key : UInt8) : List UInt8 :=
  match charParse key with
  | .enter => []
  | .delete => line.dropLast
  | .legal => line ++ [key]
  | .illegal => line

/-- A line `shell_parse` has room for: six words of at most 15 characters, the first of them a
command. -/
structure LineFits (line : List UInt8) : Prop where
  count : (pieces line).length ≤ 6
  short : ∀ w ∈ pieces line, w.length ≤ 15
  known : ∃ e ∈ bashTable, (pieces line).head? = some e.name

/-- A key there is room for. -/
def KeyFits (line : List UInt8) (key : UInt8) : Prop :=
  match charParse key with
  | .enter => line.length < bufferLen ∧ LineFits line
  | .legal => line.length < bufferLen
  | _ => True

/-- The line that ends the shell. -/
def exitLine : List UInt8 := ascii ['e', 'x', 'i', 't']

/-- The key ends the shell. -/
def Exits (line : List UInt8) (key : UInt8) : Prop := charParse key = .enter ∧ line = exitLine

/-- Every key fits, as far as the shell reads them. -/
def KeysFit : List UInt8 → List UInt8 → Prop
  | _, [] => True
  | line, key :: keys => KeyFits line key ∧ (Exits line key ∨ KeysFit (edit line key) keys)

/-! ## Strings -/

section Strings

/-- The first character of a string. -/
theorem cString_cons (c : UInt8) (mem : List UInt8) :
    cString (c :: mem) = if c = 0 then [] else c :: cString mem := by
  unfold cString
  by_cases hc : c = 0
  · simp [hc]
  · simp [hc]

theorem char_sub_eq_zero (c d : UInt8) : (c.toNat : Int) - d.toNat = 0 ↔ c = d := by
  rw [Int.sub_eq_zero, Int.natCast_inj, UInt8.toNat_inj]

theorem char_eq_zero (c : UInt8) : (c.toNat : Int) = 0 ↔ c = 0 := by
  rw [Int.natCast_eq_zero, ← UInt8.toNat_inj]
  rfl

/-- `strcmp` is zero on equal strings only. -/
theorem strcmp_eq_zero_iff (str1 str2 : List UInt8) :
    strcmp str1 str2 = 0 ↔ cString str1 = cString str2 := by
  induction str1 generalizing str2 with
  | nil =>
      cases str2 with
      | nil => simp [strcmp]
      | cons d str2 =>
          rw [strcmp, Int.neg_eq_zero, char_eq_zero, cString_cons]
          by_cases hd : d = 0
          · simp [hd, cString]
          · simp [hd, cString]
  | cons c str1 ih =>
      cases str2 with
      | nil =>
          rw [strcmp, char_eq_zero, cString_cons]
          by_cases hc : c = 0
          · simp [hc, cString]
          · simp [hc, cString]
      | cons d str2 =>
          rw [cString_cons, cString_cons, strcmp]
          by_cases hc : c = 0
          · -- the first string ends here
            rw [if_neg (fun h => h.1 hc), char_sub_eq_zero, if_pos hc]
            by_cases hd : d = 0
            · simp [hc, hd]
            · simp [hc, hd, Ne.symm hd]
          · by_cases hd : d = 0
            · -- the second one does
              rw [if_neg (fun h => h.2 hd), char_sub_eq_zero, if_neg hc, if_pos hd]
              simp [hc, hd]
            · rw [if_pos ⟨hc, hd⟩, if_neg hc, if_neg hd]
              by_cases hcd : c = d
              · rw [if_neg (not_not.mpr hcd), ih, hcd, List.cons.injEq]
                simp
              · rw [if_pos hcd, char_sub_eq_zero, List.cons.injEq]
                simp [hcd]

/-- The string at the start of a piece of memory. -/
theorem cString_append {word rest : List UInt8} (hword : 0 ∉ word) (hrest : cString rest = []) :
    cString (word ++ rest) = word := by
  induction word with
  | nil => exact hrest
  | cons c word ih =>
      have hc : c ≠ 0 := fun h => hword (h ▸ List.mem_cons_self)
      rw [List.cons_append, cString_cons, if_neg hc,
        ih fun h => hword (List.mem_cons_of_mem _ h)]

/-- An array that starts with a word and a NUL. -/
theorem cString_range {word : List UInt8} {mem : Nat → UInt8} {n : Nat} (hword : 0 ∉ word)
    (hlen : word.length < n) (hmem : ∀ o (h : o < word.length), mem o = word[o])
    (hnul : mem word.length = 0) : cString ((List.range n).map mem) = word := by
  have hsplit : (List.range n).map mem =
      word ++ ((List.range' word.length (n - word.length)).map mem) := by
    refine List.ext_getElem (by simp; omega) fun o ho ho' => ?_
    by_cases hlt : o < word.length
    · rw [List.getElem_append_left hlt, List.getElem_map, List.getElem_range, hmem o hlt]
    · rw [List.getElem_append_right (by omega), List.getElem_map, List.getElem_map,
        List.getElem_range, List.getElem_range']
      congr 1
      omega
  obtain ⟨m, hm⟩ : ∃ m, n - word.length = m + 1 := ⟨n - word.length - 1, by omega⟩
  rw [hsplit]
  refine cString_append hword ?_
  rw [hm, List.range'_succ, List.map_cons, cString_cons, if_pos hnul]

end Strings

/-! ## Commands -/

section Commands

variable {shName : List UInt8}

/-- The loop finds an entry with the name, or runs out of the table. -/
theorem findCmd_spec (shName : List UInt8) : ∀ (rounds i : Nat), i ≤ bashTable.length →
    bashTable.length < i + rounds →
    (∃ (k : Nat) (e : Entry), bashTable[k]? = some e ∧ cString shName = cString e.name ∧
      findCmd shName rounds i = .ok k) ∨
    ((∀ (k : Nat) (e : Entry), i ≤ k → bashTable[k]? = some e → cString shName ≠ cString e.name) ∧
      findCmd shName rounds i = .error .outside) := by
  intro rounds
  induction rounds with
  | zero => intro i hi hr; omega
  | succ rounds ih =>
      intro i hi hr
      rw [findCmd]
      by_cases hend : i = bashTable.length
      · have hnone : bashTable[i]? = none := List.getElem?_eq_none (by omega)
        rw [hnone]
        refine .inr ⟨fun k e hk he => ?_, rfl⟩
        have hlt := (List.getElem?_eq_some_iff.mp he).1
        omega
      · have hsome : bashTable[i]? = some bashTable[i] := List.getElem?_eq_getElem (by omega)
        rw [hsome]
        simp only
        by_cases heq : strcmp shName bashTable[i].name = 0
        · rw [if_pos heq]
          exact .inl ⟨i, _, hsome, (strcmp_eq_zero_iff _ _).mp heq, rfl⟩
        · rw [if_neg heq]
          refine (ih (i + 1) (by omega) (by omega)).imp_right fun ⟨hnone, hrun⟩ => ⟨?_, hrun⟩
          intro k e hk he
          rcases Nat.lt_or_eq_of_le hk with hlt | rfl
          · exact hnone k e hlt he
          · cases hsome.symm.trans he
            exact mt (strcmp_eq_zero_iff _ _).mpr heq

/-- The names in the table have no NUL. -/
theorem entry_names : ∀ e ∈ bashTable, cString e.name = e.name := by decide

/-- `get_cmd_id` finds every command, and reads behind the table for all other names. -/
theorem getCmdId_spec (shName : List UInt8) :
    (∃ (k : Nat) (e : Entry), bashTable[k]? = some e ∧ e.name = cString shName ∧
      getCmdId shName = .ok k) ∨
    ((∀ e ∈ bashTable, e.name ≠ cString shName) ∧ getCmdId shName = .error .outside) := by
  rcases findCmd_spec shName bashNum 0 (Nat.zero_le _) (by decide) with
    ⟨k, e, hk, hname, hrun⟩ | ⟨hnone, hrun⟩
  · refine .inl ⟨k, e, hk, ?_, hrun⟩
    rw [hname, entry_names e (List.mem_of_getElem? hk)]
  · refine .inr ⟨fun e he hname => ?_, hrun⟩
    obtain ⟨k, hk⟩ := List.mem_iff_getElem?.mp he
    refine hnone k e (Nat.zero_le k) hk ?_
    rw [← hname, entry_names e he]

end Commands

/-! ## Words -/

section Words

variable {arg arg' : Nat → Nat → UInt8} {i k : Nat} {w : List UInt8} {ws : List (List UInt8)}

theorem pieces_nil : pieces [] = [[]] := rfl

/-- A space begins a new piece. -/
theorem pieces_space (line : List UInt8) : pieces (32 :: line) = [] :: pieces line := by
  unfold pieces
  rw [List.splitOn_cons_eq_if_modifyHead, if_pos (by decide)]

/-- Any other character belongs to the first piece. -/
theorem pieces_char {c : UInt8} (hc : c ≠ 32) {line : List UInt8} (h : pieces line = w :: ws) :
    pieces (c :: line) = (c :: w) :: ws := by
  unfold pieces at h ⊢
  rw [List.splitOn_cons_eq_if_modifyHead, if_neg (by simpa using hc), h]
  rfl

/-- A line has at least one piece. -/
theorem exists_pieces (line : List UInt8) : ∃ w ws, pieces line = w :: ws :=
  List.exists_cons_of_ne_nil (List.splitOn_ne_nil 32 line)

/-- The row holds a word and a NUL from `k` on. -/
structure HoldsAt (mem : Nat → UInt8) (k : Nat) (w : List UInt8) : Prop where
  chars : ∀ o (h : o < w.length), mem (k + o) = w[o]
  nul : mem (k + w.length) = 0

/-- What the loop has stored from row `i` and column `k` on. -/
structure Stored (i k : Nat) (w : List UInt8) (ws : List (List UInt8))
    (arg arg' : Nat → Nat → UInt8) : Prop where
  before : ∀ a o, a < i ∨ a = i ∧ o < k → arg' a o = arg a o
  first : HoldsAt (arg' i) k w
  later : ∀ b (h : b < ws.length), HoldsAt (arg' (i + 1 + b)) 0 ws[b]

/-- There is room for the words from row `i` and column `k` on. -/
def Room (i k : Nat) (w : List UInt8) (ws : List (List UInt8)) : Prop :=
  i + ws.length < 6 ∧ k + w.length < 16 ∧ ∀ v ∈ ws, v.length < 16

/-- A store into `arg` at indices in range. -/
theorem setArg_ok (h : i < 6 ∧ k < 16) (c : UInt8) (arg : Nat → Nat → UInt8) :
    setArg i k c arg = .ok fun a o => if a = i ∧ o = k then c else arg a o := if_pos h

/-- A store into `arg` at indices out of range. -/
theorem setArg_outside (h : ¬(i < 6 ∧ k < 16)) (c : UInt8) (arg : Nat → Nat → UInt8) :
    setArg i k c arg = .error .outside := if_neg h

/-- The NUL behind the last word. -/
theorem Stored.last (arg : Nat → Nat → UInt8) (i k : Nat) :
    Stored i k [] [] arg fun a o => if a = i ∧ o = k then 0 else arg a o where
  before a o h := if_neg (by omega)
  first := ⟨fun o h => absurd h (Nat.not_lt_zero o), if_pos ⟨rfl, rfl⟩⟩
  later b h := absurd h (Nat.not_lt_zero b)

/-- A character, and then the rest of its word. -/
theorem Stored.char {c : UInt8} (h : Stored i (k + 1) w ws
    (fun a o => if a = i ∧ o = k then c else arg a o) arg') : Stored i k (c :: w) ws arg arg' where
  before a o ho := by
    rw [h.before a o (by omega)]
    exact if_neg (by omega)
  first := by
    refine ⟨fun o ho => ?_, ?_⟩
    · cases o with
      | zero =>
          rw [Nat.add_zero, h.before i k (by omega)]
          exact if_pos ⟨rfl, rfl⟩
      | succ o =>
          have hlt : o < w.length := Nat.lt_of_succ_lt_succ ho
          rw [List.getElem_cons_succ, ← h.first.chars o hlt]
          congr 1
          omega
    · rw [← h.first.nul, List.length_cons]
      congr 1
      omega
  later := h.later

/-- A NUL, and then the next word. -/
theorem Stored.space (h : Stored (i + 1) 0 w ws
    (fun a o => if a = i ∧ o = k then 0 else arg a o) arg') :
    Stored i k [] (w :: ws) arg arg' where
  before a o ho := by
    rw [h.before a o (by omega)]
    exact if_neg (by omega)
  first := by
    refine ⟨fun o ho => absurd ho (Nat.not_lt_zero o), ?_⟩
    rw [h.before i _ (by omega)]
    exact if_pos ⟨rfl, rfl⟩
  later b hb := by
    cases b with
    | zero => exact h.first
    | succ b =>
        have hrow : i + 1 + (b + 1) = i + 1 + 1 + b := by omega
        rw [hrow]
        exact h.later b (Nat.lt_of_succ_lt_succ hb)

/-- Where the string ends does not matter. -/
theorem splitArgs_cString (mem : List UInt8) : ∀ (i k : Nat) (arg : Nat → Nat → UInt8),
    splitArgs mem i k arg = splitArgs (cString mem) i k arg := by
  induction mem with
  | nil => exact fun _ _ _ => rfl
  | cons c mem ih =>
      intro i k arg
      rw [cString_cons]
      by_cases hc : c = 0
      · simp only [splitArgs, hc, if_true]
      · rw [if_neg hc, splitArgs, splitArgs, if_neg hc, if_neg hc]
        simp only [ih]

/-- The loop stores the pieces of the line as long as there is room for them, and stores outside
of `arg` otherwise. -/
theorem splitArgs_spec (line : List UInt8) : ∀ (i k : Nat) (arg : Nat → Nat → UInt8)
    (w : List UInt8) (ws : List (List UInt8)), 0 ∉ line → pieces line = w :: ws →
    (Room i k w ws ∧ ∃ arg', splitArgs line i k arg = .ok (i + ws.length, arg') ∧
      Stored i k w ws arg arg') ∨
    (¬ Room i k w ws ∧ splitArgs line i k arg = .error .outside) := by
  induction line with
  | nil =>
      intro i k arg w ws _ hp
      cases hp
      unfold splitArgs
      by_cases hin : i < 6 ∧ k < 16
      · rw [setArg_ok hin]
        exact .inl ⟨⟨hin.1, hin.2, fun v hv => absurd hv List.not_mem_nil⟩, _, rfl, .last arg i k⟩
      · rw [setArg_outside hin]
        exact .inr ⟨fun h => hin ⟨h.1, h.2.1⟩, rfl⟩
  | cons c line ih =>
      intro i k arg w ws hnul hp
      have hc : c ≠ 0 := fun h => hnul (h ▸ List.mem_cons_self)
      have hrest : 0 ∉ line := fun h => hnul (List.mem_cons_of_mem _ h)
      obtain ⟨v, vs, hv⟩ := exists_pieces line
      rw [splitArgs, if_neg hc]
      by_cases hspace : c = 32
      · subst hspace
        rw [pieces_space, hv] at hp
        cases hp
        rw [if_neg (not_not.mpr rfl)]
        by_cases hin : i < 6 ∧ k < 16
        · rw [setArg_ok hin]
          rcases ih (i + 1) 0 _ v _ hrest hv with ⟨hroom, arg', hrun, hst⟩ | ⟨hroom, hrun⟩
          · refine .inl ⟨?_, arg', ?_, hst.space⟩
            · obtain ⟨h1, h2, h3⟩ := hroom
              refine ⟨by simp only [List.length_cons]; omega, by simpa using hin.2, ?_⟩
              intro u hu
              rcases List.mem_cons.mp hu with rfl | hu
              · omega
              · exact h3 u hu
            · rw [List.length_cons, ← Nat.add_assoc, Nat.add_right_comm]
              exact hrun
          · refine .inr ⟨fun h => hroom ?_, hrun⟩
            obtain ⟨h1, _, h3⟩ := h
            rw [List.length_cons] at h1
            exact ⟨by omega, by have := h3 v List.mem_cons_self; omega,
              fun u hu => h3 u (List.mem_cons_of_mem _ hu)⟩
        · rw [setArg_outside hin]
          refine .inr ⟨fun h => hin ?_, rfl⟩
          obtain ⟨h1, h2, _⟩ := h
          rw [List.length_cons] at h1
          exact ⟨by omega, by simpa using h2⟩
      · rw [pieces_char hspace hv] at hp
        cases hp
        rw [if_pos hspace]
        by_cases hin : i < 6 ∧ k < 16
        · rw [setArg_ok hin]
          rcases ih i (k + 1) _ v _ hrest hv with ⟨hroom, arg', hrun, hst⟩ | ⟨hroom, hrun⟩
          · obtain ⟨h1, h2, h3⟩ := hroom
            exact .inl ⟨⟨h1, by simp only [List.length_cons]; omega, h3⟩, arg', hrun, hst.char⟩
          · refine .inr ⟨fun h => hroom ?_, hrun⟩
            obtain ⟨h1, h2, h3⟩ := h
            rw [List.length_cons] at h2
            exact ⟨h1, by omega, h3⟩
        · rw [setArg_outside hin]
          refine .inr ⟨fun h => hin ?_, rfl⟩
          obtain ⟨h1, h2, _⟩ := h
          rw [List.length_cons] at h2
          exact ⟨by omega, by omega⟩

end Words

/-! ## One line -/

section Line

variable {mem line w : List UInt8} {ws : List (List UInt8)} {arg arg' : Nat → Nat → UInt8}

/-- There is no NUL in a string. -/
theorem zero_not_mem_cString (mem : List UInt8) : 0 ∉ cString mem := by
  induction mem with
  | nil => exact List.not_mem_nil
  | cons c mem ih =>
      rw [cString_cons]
      by_cases hc : c = 0
      · rw [if_pos hc]
        exact List.not_mem_nil
      · rw [if_neg hc]
        intro h
        rcases List.mem_cons.mp h with h | h
        · exact hc h.symm
        · exact ih h

/-- The characters of the pieces are those of the line. -/
theorem mem_of_mem_pieces (line : List UInt8) : ∀ v ∈ pieces line, ∀ c ∈ v, c ∈ line := by
  induction line with
  | nil =>
      intro v hv c hc
      rw [pieces_nil, List.mem_singleton] at hv
      rw [hv] at hc
      exact hc
  | cons d line ih =>
      intro v hv c hc
      by_cases hd : d = 32
      · subst hd
        rw [pieces_space] at hv
        rcases List.mem_cons.mp hv with rfl | hv
        · cases hc
        · exact List.mem_cons_of_mem _ (ih v hv c hc)
      · obtain ⟨w, ws, hp⟩ := exists_pieces line
        rw [pieces_char hd hp] at hv
        rw [hp] at ih
        rcases List.mem_cons.mp hv with rfl | hv
        · rcases List.mem_cons.mp hc with rfl | hc
          · exact List.mem_cons_self
          · exact List.mem_cons_of_mem _ (ih w List.mem_cons_self c hc)
        · exact List.mem_cons_of_mem _ (ih v (List.mem_cons_of_mem _ hv) c hc)

/-- A row that holds a word reads as the word. -/
theorem HoldsAt.cString_rowOf {a : Nat} (h : HoldsAt (arg a) 0 w) (hnul : 0 ∉ w)
    (hlen : w.length < 16) : cString (rowOf arg a) = w := by
  refine cString_range hnul hlen (fun o ho => ?_) ?_
  · rw [← h.chars o ho, Nat.zero_add]
  · rw [← h.nul, Nat.zero_add]

/-- The words read back from `arg`. -/
theorem Stored.words (h : Stored 0 0 w ws arg arg') (hroom : Room 0 0 w ws)
    (hnul : ∀ v ∈ w :: ws, 0 ∉ v) :
    (List.range (0 + ws.length + 1)).map (fun a => cString (rowOf arg' a)) = w :: ws := by
  obtain ⟨_, hw, hws⟩ := hroom
  refine List.ext_getElem (by simp) fun a ha ha' => ?_
  rw [List.getElem_map, List.getElem_range]
  cases a with
  | zero => exact h.first.cString_rowOf (hnul w List.mem_cons_self) (by omega)
  | succ b =>
      have hb : b < ws.length := Nat.lt_of_succ_lt_succ ha'
      have hrow := h.later b hb
      rw [show 0 + 1 + b = b + 1 by omega] at hrow
      exact hrow.cString_rowOf (hnul _ (List.mem_cons_of_mem _ (List.getElem_mem hb)))
        (hws _ (List.getElem_mem hb))

/-- There is room for a line of six pieces of 15 characters. -/
theorem room_iff (hp : pieces line = w :: ws) :
    Room 0 0 w ws ↔ (pieces line).length ≤ 6 ∧ ∀ v ∈ pieces line, v.length ≤ 15 := by
  rw [hp, List.length_cons, List.forall_mem_cons]
  unfold Room
  constructor
  · rintro ⟨hcount, hw, hws⟩
    exact ⟨by omega, by omega, fun v hv => by have := hws v hv; omega⟩
  · rintro ⟨hcount, hw, hws⟩
    exact ⟨by omega, by omega, fun v hv => by have := hws v hv; omega⟩

/-- `exit` is entry 3, which takes no parameters. -/
theorem exit_entry {k : Nat} {e : Entry} (he : bashTable[k]? = some e) :
    (e.name = exitLine ↔ k = 3) ∧ (k = 3 → e.paraNum = 0) := by
  have hall : ∀ k : Fin bashTable.length, (bashTable[k].name = exitLine ↔ k.val = 3) ∧
      (k.val = 3 → bashTable[k].paraNum = 0) := by decide
  obtain ⟨hlt, rfl⟩ := List.getElem?_eq_some_iff.mp he
  exact hall ⟨k, hlt⟩

/-- The line is `exit` exactly if its one word is. -/
theorem eq_exitLine_iff (hp : pieces line = w :: ws) : line = exitLine ↔ w = exitLine ∧ ws = [] := by
  constructor
  · rintro rfl
    have hone : pieces exitLine = [exitLine] := by decide
    rw [hone] at hp
    cases hp
    exact ⟨rfl, rfl⟩
  · rintro ⟨rfl, rfl⟩
    have hback : [32].intercalate (pieces line) = line := List.intercalate_splitOn 32
    rw [hp] at hback
    rw [← hback]
    rfl

/-- What `shell_parse` does with a line: it is taken apart where it fits, and an array is left
where it does not. -/
theorem shellParse_spec (mem : List UInt8) :
    (LineFits (cString mem) ∧ ∃ p, shellParse mem = .ok p ∧ p.Right ∧
      (p.action = .run 3 ↔ cString mem = exitLine)) ∨
    (¬ LineFits (cString mem) ∧ shellParse mem = .error .outside) := by
  obtain ⟨w, ws, hp⟩ := exists_pieces (cString mem)
  have hnul : ∀ v ∈ w :: ws, 0 ∉ v := fun v hv hz =>
    zero_not_mem_cString mem (mem_of_mem_pieces _ v (hp ▸ hv) 0 hz)
  unfold shellParse
  rw [splitArgs_cString]
  rcases splitArgs_spec (cString mem) 0 0 (fun _ _ => 0) w ws (zero_not_mem_cString mem) hp with
    ⟨hroom, arg, hsplit, hst⟩ | ⟨hroom, hsplit⟩
  · have hwords := hst.words hroom hnul
    have hfirst : cString (rowOf arg 0) = w :=
      hst.first.cString_rowOf (hnul w List.mem_cons_self) (by have := hroom.2.1; omega)
    obtain ⟨hcount, hshort⟩ := (room_iff hp).mp hroom
    rw [hsplit]
    rcases getCmdId_spec (rowOf arg 0) with ⟨k, e, he, hname, hcmd⟩ | ⟨hnone, hcmd⟩
    · have hknown : ∃ e ∈ bashTable, (pieces (cString mem)).head? = some e.name :=
        ⟨e, List.mem_of_getElem? he, by rw [hp, hname, hfirst]; rfl⟩
      refine .inl ⟨⟨hcount, hshort, hknown⟩, ?_⟩
      have hright : ∀ action, (⟨mem, 0 + ws.length, arg, k, action⟩ : Parsed).Right := fun action =>
        ⟨hwords.trans hp.symm, .inl ⟨k, e, he, hname, rfl⟩⟩
      obtain ⟨hexit, hpara⟩ := exit_entry he
      rw [eq_exitLine_iff hp, ← hfirst, ← hname, hexit]
      have hneg : ¬ (k : Int) < 0 := by omega
      simp only [bind, Except.bind, hcmd, if_neg hneg, Int.toNat_natCast, he]
      by_cases hmis : e.paraNum ≠ 0 + ws.length ∧ (k : Int) ≠ 0 ∧ (k : Int) ≠ 6 ∧ (k : Int) ≠ 9
      · refine ⟨_, if_pos hmis, hright _, fun h => ?_, fun ⟨hk, hws⟩ => ?_⟩
        · cases h
        · exact absurd (by rw [hpara hk, hws]; rfl) hmis.1
      · refine ⟨_, if_neg hmis, hright _, fun h => ?_, fun ⟨hk, _⟩ => by rw [hk]⟩
        have hk : k = 3 := Action.run.inj h
        refine ⟨hk, List.length_eq_zero_iff.mp ?_⟩
        by_contra hlen
        exact hmis ⟨by rw [hpara hk]; omega, by omega, by omega, by omega⟩
    · refine .inr ⟨fun h => ?_, ?_⟩
      · obtain ⟨e, he, hhead⟩ := h.known
        rw [hp] at hhead
        exact hnone e he ((Option.some.inj hhead).symm.trans hfirst.symm)
      · simp only [bind, Except.bind, hcmd]
  · refine .inr ⟨fun h => hroom ((room_iff hp).mpr ⟨h.count, h.short⟩), ?_⟩
    rw [hsplit]
    rfl

end Line

/-! ## Keys -/

section Keys

variable {s s' : State} {line keys : List UInt8} {key : UInt8}

/-- The buffer holds the line that is typed, and zeros behind it. -/
structure Holds (s : State) (line : List UInt8) : Prop where
  running : s.exited = false
  index : s.index = line.length
  size : line.length ≤ bufferLen
  chars : ∀ j (h : j < line.length), s.buffer j = (line)[j]
  blank : ∀ j, line.length ≤ j → s.buffer j = 0
  text : 0 ∉ line

/-- The buffer is empty at the start. -/
theorem start_holds : Holds start [] where
  running := rfl
  index := rfl
  size := Nat.zero_le _
  chars j h := absurd h (Nat.not_lt_zero j)
  blank _ _ := rfl
  text := List.not_mem_nil

/-- A store into `buffer` at an index in range. -/
theorem setBuffer_ok {i : Nat} (h : i < bufferLen) (c : UInt8) (s : State) :
    setBuffer i c s = .ok { s with buffer := fun j => if j = i then c else s.buffer j } := if_pos h

/-- A store into `buffer` at an index out of range. -/
theorem setBuffer_outside {i : Nat} (h : ¬ i < bufferLen) (c : UInt8) (s : State) :
    setBuffer i c s = .error .outside := if_neg h

/-- A line that is not full is passed to `shell_parse` as it was typed. -/
theorem Holds.cString_buffer (h : Holds s line) (hlt : line.length < bufferLen) :
    cString ((List.range bufferLen).map fun j => if j = s.index then 0 else s.buffer j) = line := by
  refine cString_range h.text hlt (fun o ho => ?_) ?_
  · rw [h.index, if_neg (Nat.ne_of_lt ho)]
    exact h.chars o ho
  · exact if_pos h.index.symm

/-- Enter. -/
theorem readKey_enter (h : Holds s line) (hkey : charParse key = .enter) :
    (KeyFits line key ∧ ∃ s' p, readKey key s = .ok s' ∧ p.Right ∧
      s'.parsed = s.parsed ++ [p] ∧ (s'.exited = true ∧ Exits line key ∨
        ¬ Exits line key ∧ Holds s' (edit line key))) ∨
    (¬ KeyFits line key ∧ readKey key s = .error .outside) := by
  unfold readKey KeyFits Exits edit
  rw [if_neg (by rw [h.running]; decide)]
  simp only [hkey]
  by_cases hlt : line.length < bufferLen
  · rw [setBuffer_ok (h.index ▸ hlt)]
    rcases shellParse_spec ((List.range bufferLen).map fun j =>
        if j = s.index then 0 else s.buffer j) with ⟨hfits, p, hp, hright, hexit⟩ | ⟨hfits, hp⟩
    · rw [h.cString_buffer hlt] at hfits hexit
      simp only [bind, Except.bind, hp]
      refine .inl ⟨⟨hlt, hfits⟩, _, p, rfl, hright, rfl, ?_⟩
      by_cases hx : line = exitLine
      · exact .inl ⟨decide_eq_true (hexit.mpr hx), trivial, hx⟩
      · refine .inr ⟨fun hcon => hx hcon.2, ?_⟩
        exact {
          running := decide_eq_false (mt hexit.mp hx)
          index := rfl
          size := Nat.zero_le _
          chars := fun j hj => absurd hj (Nat.not_lt_zero j)
          blank := fun j _ => by
            simp only
            by_cases hj : j < s.index
            · rw [if_pos hj]
            · rw [if_neg hj]
              by_cases hji : j = s.index
              · rw [if_pos hji]
              · rw [if_neg hji]
                exact h.blank j (by rw [← h.index]; omega)
          text := List.not_mem_nil }
    · rw [h.cString_buffer hlt] at hfits
      refine .inr ⟨fun hcon => hfits hcon.2, ?_⟩
      simp only [bind, Except.bind, hp]
  · rw [setBuffer_outside (h.index ▸ hlt)]
    exact .inr ⟨fun hcon => hlt hcon.1, rfl⟩

/-- A deletion. -/
theorem readKey_delete (h : Holds s line) (hkey : charParse key = .delete) :
    ∃ s', readKey key s = .ok s' ∧ s'.parsed = s.parsed ∧ Holds s' (edit line key) := by
  unfold readKey edit
  rw [if_neg (by rw [h.running]; decide)]
  simp only [hkey]
  by_cases hzero : s.index ≠ 0
  · rw [if_pos hzero, setBuffer_ok (by have := h.index; have := h.size; omega)]
    refine ⟨_, rfl, rfl, ?_⟩
    have hindex := h.index
    exact {
      running := h.running
      index := by rw [List.length_dropLast, ← hindex]
      size := le_trans (by rw [List.length_dropLast]; omega) h.size
      chars := fun j hj => by
        rw [List.length_dropLast] at hj
        rw [List.getElem_dropLast, ← h.chars j (by omega)]
        exact if_neg (by omega)
      blank := fun j hj => by
        rw [List.length_dropLast] at hj
        by_cases hji : j = s.index - 1
        · exact if_pos hji
        · exact (if_neg hji).trans (h.blank j (by omega))
      text := fun hz => h.text (List.mem_of_mem_dropLast hz) }
  · have hnil : line = [] := List.length_eq_zero_iff.mp (by rw [← h.index]; omega)
    rw [if_neg hzero]
    refine ⟨s, rfl, rfl, ?_⟩
    rw [hnil] at h ⊢
    exact h

/-- The NUL is no legal key. -/
theorem ne_zero_of_legal (hkey : charParse key = .legal) : key ≠ 0 := by
  rintro rfl
  exact absurd hkey (by decide)

/-- A character of the line. -/
theorem readKey_legal (h : Holds s line) (hkey : charParse key = .legal) :
    (KeyFits line key ∧ ∃ s', readKey key s = .ok s' ∧ s'.parsed = s.parsed ∧
      Holds s' (edit line key)) ∨
    (¬ KeyFits line key ∧ readKey key s = .error .outside) := by
  unfold readKey KeyFits edit
  rw [if_neg (by rw [h.running]; decide)]
  simp only [hkey]
  by_cases hlt : line.length < bufferLen
  · rw [setBuffer_ok (h.index ▸ hlt)]
    refine .inl ⟨hlt, _, rfl, rfl, ?_⟩
    exact {
      running := h.running
      index := by rw [List.length_append, List.length_singleton, ← h.index]
      size := by
        rw [List.length_append, List.length_singleton]
        exact hlt
      chars := fun j hj => by
        by_cases hji : j = s.index
        · have hlen : j = line.length := hji.trans h.index
          subst hlen
          rw [List.getElem_concat_length rfl]
          exact if_pos hji
        · have hj' : j < line.length := by
            rw [List.length_append, List.length_singleton, ← h.index] at hj
            rw [← h.index]
            omega
          rw [List.getElem_append_left hj', ← h.chars j hj']
          exact if_neg hji
      blank := fun j hj => by
        rw [List.length_append, List.length_singleton] at hj
        rw [← h.blank j (by omega)]
        exact if_neg (by rw [h.index]; omega)
      text := fun hz => by
        rcases List.mem_append.mp hz with hz | hz
        · exact h.text hz
        · exact ne_zero_of_legal hkey (List.mem_singleton.mp hz).symm }
  · rw [setBuffer_outside (h.index ▸ hlt)]
    exact .inr ⟨hlt, rfl⟩

/-- A key that fits leads to the line behind it or ends the shell; every other one leads out of an
array. -/
theorem readKey_spec (h : Holds s line) (key : UInt8) :
    (KeyFits line key ∧ ∃ s', readKey key s = .ok s' ∧
      (∀ p ∈ s'.parsed, p ∈ s.parsed ∨ p.Right) ∧
      (s'.exited = true ∧ Exits line key ∨ ¬ Exits line key ∧ Holds s' (edit line key))) ∨
    (¬ KeyFits line key ∧ readKey key s = .error .outside) := by
  have hother : charParse key ≠ .enter → ¬ Exits line key := fun hne hx => hne hx.1
  cases hkey : charParse key with
  | enter =>
      refine (readKey_enter h hkey).imp_left fun ⟨hfits, s', p, hrun, hright, hlog, hnext⟩ => ?_
      refine ⟨hfits, s', hrun, fun q hq => ?_, hnext⟩
      rw [hlog] at hq
      rcases List.mem_append.mp hq with hq | hq
      · exact .inl hq
      · exact .inr (List.mem_singleton.mp hq ▸ hright)
  | delete =>
      obtain ⟨s', hrun, hlog, hnext⟩ := readKey_delete h hkey
      refine .inl ⟨?_, s', hrun, fun q hq => .inl (hlog ▸ hq),
        .inr ⟨hother (by rw [hkey]; decide), hnext⟩⟩
      unfold KeyFits
      rw [hkey]
      trivial
  | legal =>
      refine (readKey_legal h hkey).imp_left fun ⟨hfits, s', hrun, hlog, hnext⟩ => ?_
      exact ⟨hfits, s', hrun, fun q hq => .inl (hlog ▸ hq),
        .inr ⟨hother (by rw [hkey]; decide), hnext⟩⟩
  | illegal =>
      refine .inl ⟨?_, s, ?_, fun q hq => .inl hq, .inr ⟨hother (by rw [hkey]; decide), ?_⟩⟩
      · unfold KeyFits
        rw [hkey]
        trivial
      · unfold readKey
        rw [if_neg (by rw [h.running]; decide), hkey]
      · unfold edit
        rw [hkey]
        exact h

/-- Behind `exit` no key is read. -/
theorem run_exited (h : s.exited = true) (keys : List UInt8) : run readKey keys s = .ok s := by
  induction keys with
  | nil => rfl
  | cons key keys ih =>
      have hstep : readKey key s = .ok s := if_pos h
      unfold run
      rw [hstep]
      exact ih

/-- The run over the keys: they fit, or an array is left. -/
theorem run_spec (keys : List UInt8) : ∀ (s : State) (line : List UInt8), Holds s line →
    (KeysFit line keys ∧ ∃ t, run readKey keys s = .ok t ∧
      ∀ p ∈ t.parsed, p ∈ s.parsed ∨ p.Right) ∨
    (¬ KeysFit line keys ∧ run readKey keys s = .error .outside) := by
  induction keys with
  | nil => exact fun s line _ => .inl ⟨trivial, s, rfl, fun p hp => .inl hp⟩
  | cons key keys ih =>
      intro s line h
      unfold run
      rcases readKey_spec h key with ⟨hfits, s', hrun, hlog, hnext⟩ | ⟨hfits, hrun⟩
      · rw [hrun]
        rcases hnext with ⟨hend, hx⟩ | ⟨hx, hnext⟩
        · exact .inl ⟨⟨hfits, .inl hx⟩, s', run_exited hend keys, hlog⟩
        · rcases ih s' _ hnext with ⟨hkeys, t, ht, hlog'⟩ | ⟨hkeys, ht⟩
          · refine .inl ⟨⟨hfits, .inr hkeys⟩, t, ht, fun p hp => ?_⟩
            rcases hlog' p hp with hp | hp
            · exact hlog p hp
            · exact .inr hp
          · exact .inr ⟨fun hcon => hcon.2.elim hx hkeys, ht⟩
      · rw [hrun]
        exact .inr ⟨fun hcon => hfits hcon.1, rfl⟩

/-- A run that ends in an access outside is not safe. -/
theorem not_safe_of_outside (h : run readKey keys start = .error .outside) :
    ¬ ShellSafe keys := by
  rintro ⟨t, ht, _⟩
  rw [h] at ht
  cases ht

/-- **The shell keeps to its arrays, and takes every line apart as it should, exactly as long as
every line fits into the buffer, its words into `arg` and its first word is in the table.** -/
theorem shell_safe_iff (keys : List UInt8) : ShellSafe keys ↔ KeysFit [] keys := by
  rcases run_spec keys start [] start_holds with ⟨hfits, t, ht, hlog⟩ | ⟨hfits, ht⟩
  · refine ⟨fun _ => hfits, fun _ => ⟨t, ht, fun p hp => ?_⟩⟩
    exact (hlog p hp).resolve_left List.not_mem_nil
  · exact ⟨fun hsafe => absurd hsafe (not_safe_of_outside ht), fun hcon => absurd hcon hfits⟩

/-- An unknown command, a line that goes on behind 80 characters, a word of 16 and a seventh word. -/
theorem shell_leaves_arrays : ¬ ShellSafe [97, 13] ∧ ¬ ShellSafe (List.replicate 81 97) ∧
    ¬ ShellSafe (ascii ['c', 'd', ' '] ++ List.replicate 16 97 ++ [13]) ∧
    ¬ ShellSafe (ascii ['p', 's', ' ', ' ', ' ', ' ', ' ', ' '] ++ [13]) :=
  ⟨not_safe_of_outside rfl, not_safe_of_outside rfl, not_safe_of_outside rfl,
    not_safe_of_outside rfl⟩

end Keys

end Shell
