import OslabRiscv.Fs.Lookup

/-!
# What a path means

A path is a list of components, spelled with a `/` between them and perhaps one at
the end.  `pathDirs` is the loop around `getDir` and `getSubdir` that all calls on
paths share, with every search succeeding: the pointers it hands on, each with the
memory of that moment.  The calls are then one search after another over that
list.

The loop visits the components of the path under conditions on their lengths and
on one byte behind the end of the path, and under no others.
-/

namespace Fs

open ByteStore Outcome

/-! ## Spelling -/

/-- The bytes at `a` are `xs`. -/
def Bytes (mem : Store) : Nat → List UInt8 → Prop
  | _, [] => True
  | a, x :: xs => mem a = x ∧ Bytes mem (a + 1) xs

/-- The string at `a` is `xs`. -/
def Spelled (mem : Store) (a : Nat) (xs : List UInt8) : Prop :=
  Bytes mem a xs ∧ mem (a + xs.length) = 0

/-- A component of a path. -/
def PlainName (c : List UInt8) : Prop := c ≠ [] ∧ ∀ x ∈ c, x ≠ 0 ∧ x ≠ 47

/-- Components with a `/` between them, and one at the end if `slash` is set. -/
def spell : List (List UInt8) → Bool → List UInt8
  | [], _ => []
  | [c], slash => if slash then c ++ [47] else c
  | c :: c' :: cs, slash => c ++ 47 :: spell (c' :: cs) slash

section Bytes

variable {mem mem' : Store} {a : Nat} {xs ys : List UInt8}

/-- A text in two parts lies one part after the other. -/
theorem bytes_append : Bytes mem a (xs ++ ys) ↔ Bytes mem a xs ∧ Bytes mem (a + xs.length) ys := by
  induction xs generalizing a with
  | nil => simp [Bytes]
  | cons x xs ih =>
      simp only [List.cons_append, Bytes, ih, List.length_cons, and_assoc]
      rw [show a + 1 + xs.length = a + (xs.length + 1) by omega]

theorem Bytes.congr (h : Bytes mem a xs) (heq : ∀ m, m < xs.length → mem' (a + m) = mem (a + m)) :
    Bytes mem' a xs := by
  induction xs generalizing a with
  | nil => trivial
  | cons x xs ih =>
      refine ⟨(heq 0 (by simp)).trans h.1, ih h.2 fun m hm => ?_⟩
      have := heq (m + 1) (by simp only [List.length_cons]; omega)
      rwa [show a + (m + 1) = a + 1 + m by omega] at this

/-- Each byte of a text's place is one of the text. -/
theorem Bytes.byte_mem (h : Bytes mem a xs) {m : Nat} (hm : m < xs.length) : mem (a + m) ∈ xs := by
  induction xs generalizing a m with
  | nil => simp at hm
  | cons x xs ih =>
      cases m with
      | zero => exact h.1 ▸ List.mem_cons_self
      | succ m =>
          have := ih h.2 (m := m) (by simp only [List.length_cons] at hm; omega)
          rw [show a + 1 + m = a + (m + 1) by omega] at this
          exact List.mem_cons_of_mem _ this

/-- Two memories that spell the same bytes agree on them. -/
theorem Bytes.agree {b : Nat} (h : Bytes mem a xs) (h' : Bytes mem' b xs) {m : Nat}
    (hm : m < xs.length) : mem (a + m) = mem' (b + m) := by
  induction xs generalizing a b m with
  | nil => simp at hm
  | cons x xs ih =>
      cases m with
      | zero => exact h.1.trans h'.1.symm
      | succ m =>
          have := ih h.2 h'.2 (m := m) (by simp only [List.length_cons] at hm; omega)
          rwa [show a + 1 + m = a + (m + 1) by omega, show b + 1 + m = b + (m + 1) by omega] at this

theorem Spelled.congr (h : Spelled mem a xs)
    (heq : ∀ m, m ≤ xs.length → mem' (a + m) = mem (a + m)) : Spelled mem' a xs :=
  ⟨h.1.congr fun m hm => heq m (le_of_lt hm), (heq _ (Nat.le_refl _)).trans h.2⟩

/-- A plain name is a run without slash and null. -/
theorem PlainName.run {c : List UInt8} (hc : PlainName c) (h : Bytes mem a c) :
    PlainRun mem a c.length := fun _ hm => hc.2 _ (h.byte_mem hm)

/-- A plain name ends where its null stands. -/
theorem PlainName.ends {c : List UInt8} (hc : PlainName c) (h : Spelled mem a c) :
    NameEnds mem a c.length := (hc.run h.1).ends h.2

/-- A plain name is not empty. -/
theorem PlainName.length_pos {c : List UInt8} (hc : PlainName c) : 0 < c.length :=
  List.length_pos_iff.mpr hc.1

end Bytes

/-! ## The loop -/

/-- The loop of the calls on paths, with every search succeeding: what `getDir`
returns, and the memory at that moment. -/
def pathDirs : Nat → Nat → Store → Except Halt (List (Nat × Store))
  | 0, _, _ => .error .undefined
  | fuel + 1, path, mem => do
    let (dir, mem) ← getDir mem path
    let subdir := getSubdir mem path
    if subdir ≠ 0 ∧ mem subdir ≠ 0 then do
      let rest ← pathDirs fuel subdir mem
      .ok ((dir, mem) :: rest)
    else .ok [(dir, mem)]

/-- The pointer is not null and leads to the name. -/
def ReadsAs (q : Nat × Store) (c : List UInt8) : Prop := q.1 ≠ 0 ∧ Spelled q.2 q.1 c

/-- What makes the loop visit the components of a path: an inner component does not
fill the name field, and behind the last one, unless a `/` follows or it fills the
field, there is a second zero byte. -/
def Visitable (mem : Store) (path : Nat) (cs : List (List UInt8)) (slash : Bool) : Prop :=
  (∀ c ∈ cs.dropLast, c.length + 1 < dName) ∧
    (slash = true ∨ (cs.getLast?.map List.length) = some (dName - 1) ∨
      mem (path + (spell cs slash).length + 1) = 0)

section Loop

variable {mem : Store} {path fuel : Nat} {c c' : List UInt8} {cs : List (List UInt8)}
  {slash : Bool}

/-- A path that is read has at least one component. -/
theorem pathDirs_length {l : List (Nat × Store)} (h : pathDirs fuel path mem = .ok l) :
    0 < l.length := by
  cases fuel with
  | zero => cases h
  | succ fuel =>
      unfold pathDirs at h
      cases hget : getDir mem path with
      | error e => rw [hget] at h; cases h
      | ok q =>
          rw [hget] at h
          simp only [bind, Except.bind] at h
          split_ifs at h with hmore
          · cases hrest : pathDirs fuel (getSubdir q.2 path) q.2 with
            | error e => rw [hrest] at h; cases h
            | ok rest =>
                rw [hrest] at h
                cases h
                simp
          · cases h
            simp

/-- One round of the loop. -/
theorem pathDirs_step {dir : Nat} {mem' : Store} (h : getDir mem path = .ok (dir, mem')) :
    pathDirs (fuel + 1) path mem =
      if getSubdir mem' path ≠ 0 ∧ mem' (getSubdir mem' path) ≠ 0 then
        (pathDirs fuel (getSubdir mem' path) mem').map fun rest => (dir, mem') :: rest
      else .ok [(dir, mem')] := by
  rw [pathDirs, h]
  simp only [bind, Except.bind]
  split_ifs
  · cases pathDirs fuel (getSubdir mem' path) mem' <;> rfl
  · rfl

/-- A list that gains a head was a list before. -/
theorem map_cons_ok {q : Nat × Store} {x : Except Halt (List (Nat × Store))}
    {l : List (Nat × Store)} (h : (x.map fun rest => q :: rest) = .ok l) :
    ∃ rest, x = .ok rest ∧ l = q :: rest := by
  cases x with
  | error e => cases h
  | ok rest =>
      cases h
      exact ⟨rest, rfl, rfl⟩

/-- What the loop hands on first. -/
theorem pathDirs_head {q : Nat × Store} {l : List (Nat × Store)} {dir : Nat} {mem' : Store}
    (h : getDir mem path = .ok (dir, mem')) (hl : pathDirs (fuel + 1) path mem = .ok (q :: l)) :
    q = (dir, mem') := by
  rw [pathDirs_step h] at hl
  split_ifs at hl
  · obtain ⟨rest, _, heq⟩ := map_cons_ok hl
    cases heq
    rfl
  · cases hl
    rfl

/-- An inner component: cut off at its `/`. -/
theorem getDir_inner {ys : List UInt8} (hc : PlainName c) (hp : path ≠ 0)
    (hlen : c.length < dName) (hs : Spelled mem path (c ++ 47 :: ys)) :
    getDir mem path = .ok (path, wr8 mem (path + c.length) 0) ∧
      Spelled (wr8 mem (path + c.length) 0) path c ∧
      Spelled (wr8 mem (path + c.length) 0) (path + c.length + 1) ys := by
  obtain ⟨hbytes, hend⟩ := hs
  rw [bytes_append] at hbytes
  obtain ⟨hname, hslash, hrest⟩ := hbytes
  rw [List.length_append, List.length_cons] at hend
  refine ⟨getDir_slash hp (hc.run hname) hlen hslash, ⟨hname.congr fun m hm => ?_, ?_⟩,
    hrest.congr fun m hm => ?_, ?_⟩
  · exact wr8_apply_of_ne _ _ (by omega)
  · exact wr8_apply _ _ _
  · exact wr8_apply_of_ne _ _ (by omega)
  · rw [wr8_apply_of_ne _ _ (by omega), show path + c.length + 1 + ys.length =
      path + (c.length + (ys.length + 1)) by omega]
    exact hend

/-- A path that is spelled starts with a byte that is not null. -/
theorem spell_head (hc : PlainName c) (cs : List (List UInt8)) (slash : Bool) :
    ∃ x xs, spell (c :: cs) slash = x :: xs ∧ x ≠ 0 := by
  obtain ⟨x, xs, rfl⟩ := List.exists_cons_of_ne_nil hc.1
  have hx := (hc.2 x List.mem_cons_self).1
  cases cs with
  | nil =>
      cases slash with
      | true => exact ⟨x, xs ++ [47], rfl, hx⟩
      | false => exact ⟨x, xs, rfl, hx⟩
  | cons c' cs => exact ⟨x, xs ++ 47 :: spell (c' :: cs) slash, rfl, hx⟩

/-- A path is no shorter than the number of its components. -/
theorem length_le_spell (hcs : ∀ c ∈ cs, PlainName c) : cs.length ≤ (spell cs slash).length := by
  induction cs with
  | nil => simp [spell]
  | cons c cs ih =>
      have hpos := (hcs c List.mem_cons_self).length_pos
      cases cs with
      | nil =>
          cases slash with
          | true => simp only [spell, if_true, List.length_append, List.length_cons]; omega
          | false => simp only [spell, List.length_cons, List.length_nil]; simp; omega
      | cons c' cs =>
          have := ih fun d hd => hcs d (List.mem_cons_of_mem _ hd)
          simp only [spell, List.length_append, List.length_cons] at this ⊢
          omega

/-- Whether a path is visitable is decided behind its first component, if that does
not fill the name field. -/
theorem visitable_cons (hc : c.length + 1 ≠ dName) (hlen : c.length < dName) :
    Visitable (wr8 mem (path + c.length) 0) (path + c.length + 1) (c' :: cs) slash ↔
      Visitable mem path (c :: c' :: cs) slash := by
  have haddr : path + (spell (c :: c' :: cs) slash).length + 1 =
      path + c.length + 1 + (spell (c' :: cs) slash).length + 1 := by
    simp only [spell, List.length_append, List.length_cons]
    omega
  unfold Visitable
  rw [haddr, wr8_apply_of_ne _ _ (by omega), List.getLast?_cons_cons, List.dropLast_cons_cons]
  simp only [List.mem_cons, forall_eq_or_imp]
  constructor
  · rintro ⟨hinner, hlast⟩
    exact ⟨⟨by omega, hinner⟩, hlast⟩
  · rintro ⟨⟨_, hinner⟩, hlast⟩
    exact ⟨hinner, hlast⟩

/-- **What the loop visits.**  For a path whose components all fit a name field, it is
the list of the components exactly when the path is `Visitable`. -/
theorem pathDirs_iff (hp : path ≠ 0) (hne : cs ≠ []) (hcs : ∀ c ∈ cs, PlainName c)
    (hfit : ∀ c ∈ cs, c.length < dName) (hs : Spelled mem path (spell cs slash))
    (hfuel : cs.length ≤ fuel) :
    (∃ l, pathDirs fuel path mem = .ok l ∧ List.Forall₂ ReadsAs l cs) ↔
      Visitable mem path cs slash := by
  induction cs generalizing path mem fuel with
  | nil => exact absurd rfl hne
  | cons c cs ih =>
      have hc := hcs c List.mem_cons_self
      have hlen := hfit c List.mem_cons_self
      obtain ⟨fuel, rfl⟩ : ∃ k, fuel = k + 1 := ⟨fuel - 1, by simp at hfuel; omega⟩
      cases cs with
      | nil =>
          cases slash with
          | true =>
              obtain ⟨hget, hname, hrest⟩ := getDir_inner hc hp hlen hs
              have hstop : ¬ (getSubdir (wr8 mem (path + c.length) 0) path ≠ 0 ∧
                  wr8 mem (path + c.length) 0
                    (getSubdir (wr8 mem (path + c.length) 0) path) ≠ 0) := by
                rw [getSubdir_end (hc.ends hname) hlen]
                by_cases hfull : c.length + 1 = dName
                · rw [if_pos hfull]
                  exact fun hcon => hcon.1 rfl
                · rw [if_neg hfull]
                  exact fun hcon => hcon.2 hrest.2
              rw [pathDirs_step hget, if_neg hstop]
              refine ⟨fun _ => ⟨by simp, Or.inl rfl⟩, fun _ => ⟨_, rfl, ?_⟩⟩
              exact List.Forall₂.cons ⟨hp, hname⟩ List.Forall₂.nil
          | false =>
              have hget := getDir_end hp (hc.run hs.1) hlen hs.2
              rw [pathDirs_step hget, getSubdir_end (hc.ends hs) hlen]
              by_cases hmore : (if c.length + 1 = dName then 0 else path + c.length + 1) ≠ 0 ∧
                  mem (if c.length + 1 = dName then 0 else path + c.length + 1) ≠ 0
              · rw [if_pos hmore]
                have hfull : c.length + 1 ≠ dName := fun heq => hmore.1 (if_pos heq)
                rw [if_neg hfull] at hmore ⊢
                constructor
                · rintro ⟨l, hl, hall⟩
                  obtain ⟨rest, hrest, rfl⟩ := map_cons_ok hl
                  have hpos := pathDirs_length hrest
                  have hlength := hall.length_eq
                  simp only [List.length_cons, List.length_nil] at hlength
                  omega
                · rintro ⟨_, hslash | hlast | hnext⟩
                  · cases hslash
                  · simp only [List.getLast?_singleton, Option.map_some, Option.some.injEq] at hlast
                    omega
                  · exact absurd hnext hmore.2
              · rw [if_neg hmore]
                refine ⟨fun _ => ⟨by simp, Or.inr ?_⟩, fun _ => ⟨_, rfl, ?_⟩⟩
                · by_cases hfull : c.length + 1 = dName
                  · left
                    simp only [List.getLast?_singleton, Option.map_some, Option.some.injEq]
                    omega
                  · right
                    rw [if_neg hfull] at hmore
                    by_contra hnext
                    exact hmore ⟨by omega, hnext⟩
                · exact List.Forall₂.cons ⟨hp, hs⟩ List.Forall₂.nil
      | cons c' cs =>
          obtain ⟨hget, hname, hrest⟩ := getDir_inner hc hp hlen hs
          rw [pathDirs_step hget, getSubdir_end (hc.ends hname) hlen]
          by_cases hfull : c.length + 1 = dName
          · rw [if_pos hfull, if_neg fun hcon => hcon.1 rfl]
            constructor
            · rintro ⟨l, hl, hall⟩
              cases hl
              have := hall.length_eq
              simp at this
            · rintro ⟨hinner, _⟩
              have := hinner c (by simp)
              omega
          · obtain ⟨x, xs, hx, hx0⟩ := spell_head (hcs c' (by simp)) cs slash
            have hmore : path + c.length + 1 ≠ 0 ∧
                wr8 mem (path + c.length) 0 (path + c.length + 1) ≠ 0 := by
              refine ⟨by omega, ?_⟩
              rw [hx] at hrest
              rw [hrest.1.1]
              exact hx0
            rw [if_neg hfull, if_pos hmore]
            have hrec : (∃ l, pathDirs fuel (path + c.length + 1) (wr8 mem (path + c.length) 0) =
                .ok l ∧ List.Forall₂ ReadsAs l (c' :: cs)) ↔ _ :=
              ih (by omega) (by simp) (fun d hd => hcs d (List.mem_cons_of_mem _ hd))
                (fun d hd => hfit d (List.mem_cons_of_mem _ hd)) hrest
                (by simp only [List.length_cons] at hfuel ⊢; omega)
            rw [← visitable_cons hfull hlen, ← hrec]
            constructor
            · rintro ⟨l, hl, hall⟩
              obtain ⟨rest, hrest', rfl⟩ := map_cons_ok hl
              rw [List.forall₂_cons] at hall
              exact ⟨rest, hrest', hall.2⟩
            · rintro ⟨rest, hrest', hall⟩
              refine ⟨(path, wr8 mem (path + c.length) 0) :: rest, by rw [hrest']; rfl, ?_⟩
              exact List.Forall₂.cons ⟨hp, hname⟩ hall

/-- A spelled path starts with its first component. -/
theorem spell_prefix (c : List UInt8) (cs : List (List UInt8)) (slash : Bool) :
    ∃ ys, spell (c :: cs) slash = c ++ ys := by
  cases cs with
  | nil =>
      cases slash with
      | true => exact ⟨[47], rfl⟩
      | false => exact ⟨[], (List.append_nil c).symm⟩
  | cons c' cs => exact ⟨47 :: spell (c' :: cs) slash, rfl⟩

/-- The first component decides whether `getDir` refuses the path. -/
theorem getDir_first (hp : path ≠ 0) (hc : PlainName c)
    (hs : Spelled mem path (spell (c :: cs) slash)) :
    (c.length < dName → ∃ mem', getDir mem path = .ok (path, mem')) ∧
      (dName ≤ c.length → getDir mem path = .ok (0, mem)) := by
  obtain ⟨ys, hys⟩ := spell_prefix c cs slash
  have hbytes : Bytes mem path c := by
    have h := hs.1
    rw [hys, bytes_append] at h
    exact h.1
  refine ⟨fun hlen => ?_, fun hlen => getDir_long hp fun m hm => hc.run hbytes m (by omega)⟩
  cases cs with
  | nil =>
      cases slash with
      | true => exact ⟨_, (getDir_inner hc hp hlen hs).1⟩
      | false => exact ⟨mem, getDir_end hp (hc.run hbytes) hlen hs.2⟩
  | cons c' cs => exact ⟨_, (getDir_inner hc hp hlen hs).1⟩

end Loop

/-! ## The calls -/

/-- The names the loop of `do_mkdir`, `do_rmdir`, `do_touch`, `do_rm` and `do_ln` uses,
and whether it refuses the path: it looks at the first result of `getDir` only. -/
def walkNames (path : Nat) (mem : Store) : Except Halt (List (Nat × Store) × Bool) := do
  let (dir, _) ← getDir mem path
  if dir = 0 then .ok ([], true)
  else (pathDirs addressSpace path mem).map fun l => (l, false)

/-- The names the loop of `do_cd` uses; it never refuses. -/
def cdNames (path : Nat) (mem : Store) : Except Halt (List (Nat × Store) × Bool) :=
  (pathDirs addressSpace path mem).map fun l => (l, false)

/-- A path is resolved rightly: if all components fit, they are visited in order; if
one does not, the path is refused, and what has been visited are components in
front of it. -/
def PathRight (r : Except Halt (List (Nat × Store) × Bool)) (cs : List (List UInt8)) : Prop :=
  ∃ l refused, r = .ok (l, refused) ∧
    ((∀ c ∈ cs, c.length < dName) → refused = false ∧ List.Forall₂ ReadsAs l cs) ∧
    (¬ (∀ c ∈ cs, c.length < dName) → refused = true ∧ ∃ pre, pre <+: cs ∧
      List.Forall₂ ReadsAs l pre)

/-- When the calls other than `do_cd` resolve a path rightly. -/
def WalkCond (mem : Store) (path : Nat) (cs : List (List UInt8)) (slash : Bool) : Prop :=
  ((∀ c ∈ cs, c.length < dName) → Visitable mem path cs slash) ∧
    (¬ (∀ c ∈ cs, c.length < dName) → ∃ c, cs.head? = some c ∧ dName ≤ c.length)

/-- When `do_cd` does. -/
def CdCond (mem : Store) (path : Nat) (cs : List (List UInt8)) (slash : Bool) : Prop :=
  (∀ c ∈ cs, c.length < dName) ∧ Visitable mem path cs slash

/-- A path as it stands in memory. -/
structure PathAt (mem : Store) (path : Nat) (cs : List (List UInt8)) (slash : Bool) : Prop where
  ne : path ≠ 0
  nonempty : cs ≠ []
  plain : ∀ c ∈ cs, PlainName c
  spelled : Spelled mem path (spell cs slash)
  inSpace : path + (spell cs slash).length < addressSpace

section Right

variable {mem : Store} {path : Nat} {cs : List (List UInt8)} {slash : Bool}

/-- A path has no more components than there are addresses. -/
theorem PathAt.fuel (h : PathAt mem path cs slash) : cs.length ≤ addressSpace := by
  have hle : cs.length ≤ (spell cs slash).length := length_le_spell h.plain
  have hlt := h.inSpace
  omega

/-- Where all components fit, the readings spell the path exactly on the visitable ones. -/
theorem PathAt.dirs_iff (h : PathAt mem path cs slash) (hfit : ∀ c ∈ cs, c.length < dName) :
    (∃ l, pathDirs addressSpace path mem = .ok l ∧ List.Forall₂ ReadsAs l cs) ↔
      Visitable mem path cs slash :=
  pathDirs_iff h.ne h.nonempty h.plain hfit h.spelled h.fuel

/-- **`do_cd`** resolves a path rightly exactly under `CdCond`. -/
theorem cdNames_right (h : PathAt mem path cs slash) :
    PathRight (cdNames path mem) cs ↔ CdCond mem path cs slash := by
  unfold cdNames PathRight CdCond
  constructor
  · rintro ⟨l, refused, hr, hfits, hlong⟩
    cases hdirs : pathDirs addressSpace path mem with
    | error e => rw [hdirs] at hr; cases hr
    | ok l' =>
        rw [hdirs] at hr
        cases hr
        by_cases hfit : ∀ c ∈ cs, c.length < dName
        · exact ⟨hfit, (h.dirs_iff hfit).mp ⟨l, hdirs, (hfits hfit).2⟩⟩
        · cases (hlong hfit).1
  · rintro ⟨hfit, hvis⟩
    obtain ⟨l, hl, hall⟩ := (h.dirs_iff hfit).mpr hvis
    rw [hl]
    exact ⟨l, false, rfl, fun _ => ⟨rfl, hall⟩, fun hno => absurd hfit hno⟩

/-- **The other calls** resolve a path rightly exactly under `WalkCond`. -/
theorem walkNames_right (h : PathAt mem path cs slash) :
    PathRight (walkNames path mem) cs ↔ WalkCond mem path cs slash := by
  obtain ⟨c, cs', rfl⟩ := List.exists_cons_of_ne_nil h.nonempty
  obtain ⟨hshort, hlong⟩ := getDir_first h.ne (h.plain c List.mem_cons_self) h.spelled
  unfold walkNames PathRight WalkCond
  by_cases hc : c.length < dName
  · obtain ⟨mem', hget⟩ := hshort hc
    have hnames : (getDir mem path >>= fun q => if q.1 = 0 then .ok ([], true)
        else (pathDirs addressSpace path mem).map fun l => (l, false)) = cdNames path mem := by
      rw [hget]
      exact if_neg h.ne
    change PathRight (getDir mem path >>= fun q => if q.1 = 0 then .ok ([], true)
      else (pathDirs addressSpace path mem).map fun l => (l, false)) (c :: cs') ↔ _
    rw [hnames, cdNames_right h]
    unfold CdCond
    constructor
    · rintro ⟨hfit, hvis⟩
      exact ⟨fun _ => hvis, fun hno => absurd hfit hno⟩
    · rintro ⟨hfits, hno⟩
      by_cases hfit : ∀ d ∈ c :: cs', d.length < dName
      · exact ⟨hfit, hfits hfit⟩
      · obtain ⟨d, hd, hdlen⟩ := hno hfit
        cases hd
        omega
  · have hnot : ¬ ∀ d ∈ c :: cs', d.length < dName := fun hall => hc (hall c List.mem_cons_self)
    constructor
    · intro _
      exact ⟨fun hall => absurd hall hnot, fun _ => ⟨c, rfl, by omega⟩⟩
    · intro _
      rw [hlong (by omega)]
      exact ⟨[], true, rfl, fun hall => absurd hall hnot,
        fun _ => ⟨rfl, [], List.nil_prefix, List.Forall₂.nil⟩⟩

end Right

/-! ## One search after another -/

/-- What the calls other than `do_cd` do with the names: each but the last is looked up
in the directory reached. -/
def followWalk : List (Nat × Store) → Nat → State →
    Except Halt (Option (Nat × Nat) × Store × State)
  | [], _, _ => .error .undefined
  | [(dir, mem)], dirId, s => .ok (some (dirId, dir), mem, s)
  | (dir, mem) :: q :: l, dirId, s => do
    let (dirId, s) ← searchDentry dirId dir iDir mem s
    if dirId = minusOne then .ok (none, mem, s) else followWalk (q :: l) dirId s

/-- What `do_cd` does with them. -/
def followCd : List (Nat × Store) → Nat → State → Except Halt (Option Nat × Store × State)
  | [], _, _ => .error .undefined
  | [(dir, mem)], dirId, s => do
    let (dirId, s) ← searchDentry dirId dir iDir mem s
    if dirId = minusOne then .ok (none, mem, s) else .ok (some dirId, mem, s)
  | (dir, mem) :: q :: l, dirId, s => do
    let (dirId, s) ← searchDentry dirId dir iDir mem s
    if dirId = minusOne then .ok (none, mem, s) else followCd (q :: l) dirId s

section Follow

variable {mem mem' : Store} {path dir fuel dirId : Nat} {s : State} {l : List (Nat × Store)}

/-- The loop of `do_cd` follows the names that the path reads as. -/
theorem cdLoop_follow (h : pathDirs fuel path mem = .ok l) :
    cdLoop fuel dirId path mem s = followCd l dirId s := by
  induction fuel generalizing path mem dirId s l with
  | zero => cases h
  | succ fuel ih =>
      unfold cdLoop
      cases hget : getDir mem path with
      | error e =>
          unfold pathDirs at h
          rw [hget] at h
          cases h
      | ok q =>
          obtain ⟨dir, mem'⟩ := q
          rw [pathDirs_step hget] at h
          simp only [bind, Except.bind]
          by_cases hmore : getSubdir mem' path ≠ 0 ∧ mem' (getSubdir mem' path) ≠ 0
          · rw [if_pos hmore] at h
            obtain ⟨rest, hrest, rfl⟩ := map_cons_ok h
            obtain ⟨q, rest, rfl⟩ := List.exists_cons_of_length_pos (pathDirs_length hrest)
            rw [followCd]
            simp only [if_pos hmore, ih hrest]
            rfl
          · rw [if_neg hmore] at h
            cases h
            rw [followCd]
            simp only [if_neg hmore]
            rfl

/-- The loop of the walk follows the names that the path reads as. -/
theorem walkLoop_follow (hget : getDir mem path = .ok (dir, mem'))
    (h : pathDirs fuel path mem = .ok l) :
    walkLoop fuel dirId dir (getSubdir mem' path) mem' s = followWalk l dirId s := by
  induction fuel generalizing path mem mem' dir dirId s l with
  | zero => cases h
  | succ fuel ih =>
      rw [pathDirs_step hget] at h
      unfold walkLoop
      by_cases hmore : getSubdir mem' path ≠ 0 ∧ mem' (getSubdir mem' path) ≠ 0
      · rw [if_pos hmore] at h ⊢
        obtain ⟨rest, hrest, rfl⟩ := map_cons_ok h
        obtain ⟨q, rest, rfl⟩ := List.exists_cons_of_length_pos (pathDirs_length hrest)
        have hnext : getDir mem' (getSubdir mem' path) = .ok (getDirLoop mem'
            (getSubdir mem' path) dName 0) := getDir_ok hmore.1
        rw [followWalk, hnext]
        simp only [bind, Except.bind]
        cases searchDentry dirId dir iDir mem' s with
        | error e => rfl
        | ok r =>
            simp only
            split_ifs
            · rfl
            · exact ih hnext hrest
      · rw [if_neg hmore] at h ⊢
        cases h
        rfl

/-- The calls use their names and nothing else of the path. -/
theorem walk_follow {refused : Bool} (h : walkNames path mem = .ok (l, refused)) (s : State) :
    (refused = true → ∃ mem', walk path mem s = .ok (none, mem', s)) ∧
      (refused = false → walk path mem s = followWalk l (currentId s) s) := by
  unfold walkNames at h
  unfold walk
  cases hget : getDir mem path with
  | error e => rw [hget] at h; cases h
  | ok q =>
      obtain ⟨dir, mem'⟩ := q
      rw [hget] at h
      simp only [bind, Except.bind] at h ⊢
      by_cases hz : dir = 0
      · rw [if_pos hz] at h ⊢
        cases h
        exact ⟨fun _ => ⟨mem', rfl⟩, fun hcon => by cases hcon⟩
      · rw [if_neg hz] at h ⊢
        cases hdirs : pathDirs addressSpace path mem with
        | error e => rw [hdirs] at h; cases h
        | ok l' =>
            rw [hdirs] at h
            cases h
            refine ⟨fun hcon => ?_, fun _ => walkLoop_follow hget hdirs⟩
            cases hcon

end Follow

/-! ## Memories that spell the same path -/

/-- Two pointers, each in its memory, lead to the same name. -/
def SameString (q r : Nat × Store) : Prop :=
  ∃ c, PlainName c ∧ c.length < dName ∧ ReadsAs q c ∧ ReadsAs r c

/-- Two searches of a path end alike. -/
def EndAlike : Except Halt (Option (Nat × Nat) × Store × State) →
    Except Halt (Option (Nat × Nat) × Store × State) → Prop
  | .error e, .error e' => e = e'
  | .ok (none, _, s), .ok (none, _, s') => s = s'
  | .ok (some (p, dir), mem, s), .ok (some (p', dir'), mem', s') =>
    p = p' ∧ SameString (dir, mem) (dir', mem') ∧ s = s'
  | _, _ => False

/-- What a call returns and does, user memory apart. -/
def effect (r : Except Halt (Nat × Store × State)) : Except Halt (Nat × State) :=
  r.map fun v => (v.1, v.2.2)

section SameString

variable {mem mem' : Store} {dir dir' : Nat} {s : State}

/-- Two readings of one string have the same bytes up to the null. -/
theorem SameString.agree (h : SameString (dir, mem) (dir', mem')) :
    ∃ n, n < dName ∧ dir ≠ 0 ∧ dir' ≠ 0 ∧ NameEnds mem dir n ∧ NameEnds mem' dir' n ∧
      ∀ m, m ≤ n → mem (dir + m) = mem' (dir' + m) := by
  obtain ⟨c, hc, hlen, ⟨hd, hr⟩, hd', hr'⟩ := h
  refine ⟨c.length, hlen, hd, hd', hc.ends hr, hc.ends hr', fun m hm => ?_⟩
  by_cases hlt : m < c.length
  · exact hr.1.agree hr'.1 hlt
  · obtain rfl : m = c.length := by omega
    exact hr.2.trans hr'.2.symm

/-- The scan of a directory depends on the string only. -/
theorem searchLoop_string {blk : Store} {fileNum type : Nat} (h : SameString (dir, mem) (dir', mem'))
    (left i find : Nat) : searchLoop blk mem fileNum dir type left i find =
      searchLoop blk mem' fileNum dir' type left i find := by
  obtain ⟨n, _, hd, hd', hn, _, hagree⟩ := h.agree
  have hmatch : ∀ i, dentryMatches blk i mem dir type = dentryMatches blk i mem' dir' type := by
    intro i
    unfold dentryMatches strcmpZero
    rw [if_neg hd, if_neg hd', strcmpLoop_string _ _ hn hagree]
  induction left generalizing i find with
  | zero => rfl
  | succ left ih =>
      unfold searchLoop
      simp only [hmatch, ih]

/-- A search depends on the string only. -/
theorem searchDentry_string (h : SameString (dir, mem) (dir', mem')) (j type : Nat) :
    searchDentry j dir type mem s = searchDentry j dir' type mem' s := by
  unfold searchDentry
  simp only [searchLoop_string h]

/-- Whether a name is allowed depends on the string only. -/
theorem isNameIllegal_string (h : SameString (dir, mem) (dir', mem')) :
    isNameIllegal mem dir = isNameIllegal mem' dir' := by
  obtain ⟨n, _, hd, hd', hn, hn', hagree⟩ := h.agree
  have hloop : ∀ left i, i ≤ n →
      isNameIllegalLoop mem left dir i = isNameIllegalLoop mem' left dir' i := by
    intro left
    induction left with
    | zero => exact fun _ _ => rfl
    | succ left ih =>
        intro i hi
        unfold isNameIllegalLoop
        rw [hagree i hi]
        by_cases hin : i = n
        · rw [hin, hn'.1, if_pos rfl, if_pos rfl]
        · rw [ih (i + 1) (by omega)]
  unfold isNameIllegal
  rw [if_neg hd, if_neg hd', hloop _ 0 (Nat.zero_le n)]

/-- The entry that is made depends on the string only. -/
theorem createDentry_string (h : SameString (dir, mem) (dir', mem')) (p x type : Nat) :
    createDentry p x dir type mem s = createDentry p x dir' type mem' s := by
  obtain ⟨n, hlt, hd, hd', hn, hn', hagree⟩ := h.agree
  have hadd : ∀ blk k, addEntry blk k x type mem dir n = addEntry blk k x type mem' dir' n :=
    fun blk k => blit_congr fun m hm => hagree m (le_of_lt hm)
  unfold createDentry
  simp only [strlen_name hd hn hlt, strlen_name hd' hn' hlt]
  split
  · rfl
  · simp only [bind, Except.bind, hadd]

/-- The inode that is made depends on the string only. -/
theorem makeInode_string (h : SameString (dir, mem) (dir', mem')) (p type : Nat) :
    makeInode p dir type mem s = makeInode p dir' type mem' s := by
  unfold makeInode
  simp only [createDentry_string h]

end SameString

section Alike

variable {mem mem' : Store} {path path' : Nat} {s : State} {l l' : List (Nat × Store)}

/-- Following two lists of the same names. -/
theorem followWalk_alike (h : List.Forall₂ SameString l l') (dirId : Nat) :
    EndAlike (followWalk l dirId s) (followWalk l' dirId s) := by
  induction h generalizing dirId s with
  | nil => rfl
  | @cons q q' l l' hq hl ih =>
      obtain ⟨dir, mem⟩ := q
      obtain ⟨dir', mem'⟩ := q'
      cases hl with
      | nil => exact ⟨rfl, hq, rfl⟩
      | cons hr hl =>
          rw [followWalk, followWalk, searchDentry_string hq]
          cases searchDentry dirId dir' iDir mem' s with
          | error e => rfl
          | ok r =>
              simp only [bind, Except.bind]
              split_ifs
              · rfl
              · exact ih r.1

/-- Following two readings of the same names leads to the same directory. -/
theorem followCd_alike (h : List.Forall₂ SameString l l') (dirId : Nat) :
    (followCd l dirId s).map (fun r => (r.1, r.2.2)) =
      (followCd l' dirId s).map fun r => (r.1, r.2.2) := by
  induction h generalizing dirId s with
  | nil => rfl
  | @cons q q' l l' hq hl ih =>
      obtain ⟨dir, mem⟩ := q
      obtain ⟨dir', mem'⟩ := q'
      cases hl with
      | nil =>
          rw [followCd, followCd, searchDentry_string hq]
          cases searchDentry dirId dir' iDir mem' s with
          | error e => rfl
          | ok r =>
              simp only [bind, Except.bind]
              split_ifs <;> rfl
      | cons hr hl =>
          rw [followCd, followCd, searchDentry_string hq]
          cases searchDentry dirId dir' iDir mem' s with
          | error e => rfl
          | ok r =>
              simp only [bind, Except.bind]
              split_ifs
              · rfl
              · exact ih r.1

/-- Two lists of readings of one path are the same strings. -/
theorem sameString_of_reads {cs : List (List UInt8)} (hcs : ∀ c ∈ cs, PlainName c)
    (hfit : ∀ c ∈ cs, c.length < dName) (h : List.Forall₂ ReadsAs l cs)
    (h' : List.Forall₂ ReadsAs l' cs) : List.Forall₂ SameString l l' := by
  induction h generalizing l' with
  | nil =>
      cases h'
      exact List.Forall₂.nil
  | @cons q c l cs hq hl ih =>
      cases h' with
      | cons hq' hl' =>
          exact List.Forall₂.cons
            ⟨c, hcs c List.mem_cons_self, hfit c List.mem_cons_self, hq, hq'⟩
            (ih (fun d hd => hcs d (List.mem_cons_of_mem _ hd))
              (fun d hd => hfit d (List.mem_cons_of_mem _ hd)) hl')

/-- The searches of a path in two memories that spell it end alike. -/
theorem walk_alike {cs : List (List UInt8)} {slash : Bool} (h : PathAt mem path cs slash)
    (h' : PathAt mem' path' cs slash) (hc : WalkCond mem path cs slash)
    (hc' : WalkCond mem' path' cs slash) : EndAlike (walk path mem s) (walk path' mem' s) := by
  obtain ⟨l, refused, hr, hfits, hlong⟩ := (walkNames_right h).mpr hc
  obtain ⟨l', refused', hr', hfits', hlong'⟩ := (walkNames_right h').mpr hc'
  by_cases hfit : ∀ c ∈ cs, c.length < dName
  · rw [(walk_follow hr s).2 (hfits hfit).1, (walk_follow hr' s).2 (hfits' hfit).1]
    exact followWalk_alike (sameString_of_reads h.plain hfit (hfits hfit).2 (hfits' hfit).2) _
  · obtain ⟨m, hm⟩ := (walk_follow hr s).1 (hlong hfit).1
    obtain ⟨m', hm'⟩ := (walk_follow hr' s).1 (hlong' hfit).1
    rw [hm, hm']
    rfl

/-- Two ends that look alike stop alike, find nothing alike, or reach the same directory with the
same name. -/
theorem EndAlike.cases {x y : Except Halt (Option (Nat × Nat) × Store × State)}
    (h : EndAlike x y) : (∃ e, x = .error e ∧ y = .error e) ∨
      (∃ m m' t, x = .ok (none, m, t) ∧ y = .ok (none, m', t)) ∨
      ∃ p dir dir' m m' t, x = .ok (some (p, dir), m, t) ∧ y = .ok (some (p, dir'), m', t) ∧
        SameString (dir, m) (dir', m') := by
  rcases x with e | ⟨_ | ⟨p, dir⟩, m, t⟩ <;> rcases y with e' | ⟨_ | ⟨p', dir'⟩, m', t'⟩ <;>
    try exact h.elim
  · obtain rfl : e = e' := h
    exact Or.inl ⟨e, rfl, rfl⟩
  · obtain rfl : t = t' := h
    exact Or.inr (Or.inl ⟨m, m', t, rfl, rfl⟩)
  · obtain ⟨rfl, hsame, rfl⟩ := h
    exact Or.inr (Or.inr ⟨p, dir, dir', m, m', t, rfl, rfl, hsame⟩)

/-- `do_mkdir` and `do_touch` depend on the walk and the final name only. -/
theorem makePath_alike {type : Nat} (h : EndAlike (walk path mem s) (walk path' mem' s)) :
    effect (makePath type path mem s) = effect (makePath type path' mem' s) := by
  unfold makePath
  rcases h.cases with ⟨e, hx, hy⟩ | ⟨m, m', t, hx, hy⟩ | ⟨p, dir, dir', m, m', t, hx, hy, hsame⟩
  · rw [hx, hy]
  · rw [hx, hy]
    rfl
  · rw [hx, hy]
    simp only [bind, Except.bind, isNameIllegal_string hsame, searchDentry_string hsame]
    cases isNameIllegal m' dir' with
    | error e => rfl
    | ok illegal =>
        cases illegal with
        | true => rfl
        | false =>
            simp only [Bool.false_eq_true, if_false]
            cases searchDentry p dir' type m' t with
            | error e => rfl
            | ok r =>
                simp only [makeInode_string hsame]
                by_cases hfound : r.1 ≠ minusOne
                · rw [if_pos hfound, if_pos hfound]
                  rfl
                · rw [if_neg hfound, if_neg hfound]
                  cases makeInode p dir' type m' r.2 with
                  | error e => rfl
                  | ok q =>
                      simp only
                      split_ifs <;> rfl

/-- So do `do_rmdir` and `do_rm`. -/
theorem removePath_alike {type : Nat} (h : EndAlike (walk path mem s) (walk path' mem' s)) :
    effect (removePath type path mem s) = effect (removePath type path' mem' s) := by
  unfold removePath
  rcases h.cases with ⟨e, hx, hy⟩ | ⟨m, m', t, hx, hy⟩ | ⟨p, dir, dir', m, m', t, hx, hy, hsame⟩
  · rw [hx, hy]
  · rw [hx, hy]
    rfl
  · rw [hx, hy]
    simp only [bind, Except.bind, searchDentry_string hsame]
    cases searchDentry p dir' type m' t with
    | error e => rfl
    | ok r =>
        simp only
        split_ifs
        · rfl
        · cases deleteDentry p r.1 type r.2 with
          | error e => rfl
          | ok q =>
              simp only
              split_ifs
              · cases removeInode r.1 type q.2 <;> rfl
              · rfl

/-- `do_cd` depends on the names only. -/
theorem doCd_alike {cs : List (List UInt8)} {slash : Bool} (h : PathAt mem path cs slash)
    (h' : PathAt mem' path' cs slash) (hc : CdCond mem path cs slash)
    (hc' : CdCond mem' path' cs slash) :
    effect (doCd path mem s) = effect (doCd path' mem' s) := by
  obtain ⟨l, hl, hall⟩ := (h.dirs_iff hc.1).mpr hc.2
  obtain ⟨l', hl', hall'⟩ := (h'.dirs_iff hc'.1).mpr hc'.2
  have hend := followCd_alike (s := s) (sameString_of_reads h.plain hc.1 hall hall') (currentId s)
  unfold doCd
  rw [cdLoop_follow hl, cdLoop_follow hl']
  generalize followCd l (currentId s) s = x at hend ⊢
  generalize followCd l' (currentId s) s = y at hend ⊢
  rcases x with e | ⟨_ | t, m, u⟩ <;> rcases y with e' | ⟨_ | t', m', u'⟩ <;> cases hend <;> rfl

end Alike

/-! ## Two paths -/

/-- Some of the `n` bytes at `path` have become zero, and nothing else has changed. -/
def Overwritten (mem mem' : Store) (path n : Nat) : Prop :=
  ∀ a, mem' a = mem a ∨ (path ≤ a ∧ a < path + n ∧ mem' a = 0)

section Frame

variable {mem mem' mem'' : Store} {path fuel n k b : Nat} {cs : List (List UInt8)} {slash : Bool}
  {l : List (Nat × Store)}

theorem Overwritten.refl (mem : Store) (path n : Nat) : Overwritten mem mem path n :=
  fun _ => Or.inl rfl

theorem Overwritten.trans (h : Overwritten mem mem' path n) (h' : Overwritten mem' mem'' b k)
    (hlo : path ≤ b) (hhi : b + k ≤ path + n) : Overwritten mem mem'' path n := by
  intro a
  rcases h' a with heq | ⟨hge, hlt, hz⟩
  · rw [heq]
    exact h a
  · exact Or.inr ⟨by omega, by omega, hz⟩

/-- One null inside the path is written over. -/
theorem overwritten_wr8 (hlo : path ≤ b) (hhi : b < path + n) :
    Overwritten mem (wr8 mem b 0) path n := by
  intro a
  by_cases ha : a = b
  · subst ha
    exact Or.inr ⟨hlo, hhi, wr8_apply _ _ _⟩
  · exact Or.inl (wr8_apply_of_ne _ _ ha)

/-- A string outside the path stays as it is. -/
theorem Overwritten.keeps {xs : List UInt8} (h : Overwritten mem mem' path n)
    (hapart : b + xs.length < path ∨ path + n ≤ b) (hs : Spelled mem b xs) : Spelled mem' b xs := by
  refine hs.congr fun m hm => ?_
  rcases h (b + m) with heq | ⟨hge, hlt, _⟩
  · exact heq
  · omega

/-- What the loop hands on lies inside the path, and it writes nothing outside. -/
theorem pathDirs_frame (hp : path ≠ 0) (hne : cs ≠ []) (hcs : ∀ c ∈ cs, PlainName c)
    (hfit : ∀ c ∈ cs, c.length < dName) (hs : Spelled mem path (spell cs slash))
    (hvis : Visitable mem path cs slash) (hl : pathDirs fuel path mem = .ok l) :
    ∀ q ∈ l, Overwritten mem q.2 path (spell cs slash).length ∧
      path ≤ q.1 ∧ ∃ c, ReadsAs q c ∧ PlainName c ∧
        q.1 + c.length ≤ path + (spell cs slash).length := by
  induction cs generalizing path mem fuel l with
  | nil => exact absurd rfl hne
  | cons c cs ih =>
      have hc := hcs c List.mem_cons_self
      have hlen := hfit c List.mem_cons_self
      obtain ⟨fuel, rfl⟩ : ∃ k, fuel = k + 1 := by
        cases fuel with
        | zero => cases hl
        | succ k => exact ⟨k, rfl⟩
      cases cs with
      | nil =>
          -- a visitable path stops here
          have hstop : ∃ dirs, l = [dirs] := by
            obtain ⟨l', hl', hall⟩ := (pathDirs_iff hp hne hcs hfit hs
              (show [c].length ≤ fuel + 1 by simp)).mpr hvis
            rw [hl] at hl'
            cases hl'
            have hlength := hall.length_eq
            simp only [List.length_cons, List.length_nil] at hlength
            exact List.length_eq_one_iff.mp hlength
          obtain ⟨q, rfl⟩ := hstop
          intro r hr
          rw [List.mem_singleton] at hr
          subst hr
          cases slash with
          | true =>
              obtain ⟨hget, hname, _⟩ := getDir_inner hc hp hlen hs
              have hq := pathDirs_head hget hl
              subst hq
              have hn : (spell [c] true).length = c.length + 1 := by
                simp [spell]
              rw [hn]
              exact ⟨overwritten_wr8 (by omega) (by omega), Nat.le_refl _, c, ⟨hp, hname⟩, hc,
                by simp only; omega⟩
          | false =>
              have hget := getDir_end hp (hc.run hs.1) hlen hs.2
              have hq := pathDirs_head hget hl
              subst hq
              exact ⟨.refl _ _ _, Nat.le_refl _, c, ⟨hp, hs⟩, hc, Nat.le_refl _⟩
      | cons c' cs =>
          obtain ⟨hget, hname, hrest⟩ := getDir_inner hc hp hlen hs
          have hfull : c.length + 1 ≠ dName := by
            have := hvis.1 c (by simp)
            omega
          have hn : (spell (c :: c' :: cs) slash).length =
              c.length + 1 + (spell (c' :: cs) slash).length := by
            simp only [spell, List.length_append, List.length_cons]
            omega
          obtain ⟨x, xs, hx, hx0⟩ := spell_head (hcs c' (by simp)) cs slash
          have hmore : path + c.length + 1 ≠ 0 ∧
              wr8 mem (path + c.length) 0 (path + c.length + 1) ≠ 0 := by
            refine ⟨by omega, ?_⟩
            rw [hx] at hrest
            rw [hrest.1.1]
            exact hx0
          rw [pathDirs_step hget, getSubdir_end (hc.ends hname) hlen, if_neg hfull,
            if_pos hmore] at hl
          obtain ⟨rest, hrest', rfl⟩ := map_cons_ok hl
          have hwr : Overwritten mem (wr8 mem (path + c.length) 0) path
              (spell (c :: c' :: cs) slash).length := overwritten_wr8 (by omega) (by omega)
          intro q hq
          rw [List.mem_cons] at hq
          rcases hq with rfl | hq
          · exact ⟨hwr, Nat.le_refl _, c, ⟨hp, hname⟩, hc, by simp only; omega⟩
          · obtain ⟨hover, hge, d, hd, hplain, hle⟩ := ih (by omega) (by simp)
              (fun d hd => hcs d (List.mem_cons_of_mem _ hd))
              (fun d hd => hfit d (List.mem_cons_of_mem _ hd)) hrest
              ((visitable_cons hfull hlen).mpr hvis) hrest' q hq
            exact ⟨hwr.trans hover (by omega) (by omega), by omega, d, hd, hplain, by omega⟩

/-- A walk ends in one of its readings. -/
theorem followWalk_end {dirId : Nat} {s t : State} {r : Option (Nat × Nat)} {m : Store}
    (h : followWalk l dirId s = .ok (r, m, t)) :
    ∃ q ∈ l, q.2 = m ∧ ∀ p dir, r = some (p, dir) → q.1 = dir := by
  induction l generalizing dirId s with
  | nil => cases h
  | cons q l ih =>
      obtain ⟨dir, mem⟩ := q
      cases l with
      | nil =>
          cases h
          refine ⟨_, List.mem_cons_self, rfl, fun p d heq => ?_⟩
          cases heq
          rfl
      | cons q l =>
          rw [followWalk] at h
          cases hsearch : searchDentry dirId dir iDir mem s with
          | error e => rw [hsearch] at h; cases h
          | ok v =>
              rw [hsearch] at h
              simp only [bind, Except.bind] at h
              split_ifs at h
              · cases h
                exact ⟨_, List.mem_cons_self, rfl, fun p d heq => by cases heq⟩
              · obtain ⟨q', hq', hend⟩ := ih h
                exact ⟨q', List.mem_cons_of_mem _ hq', hend⟩

/-- A walk that ends in a directory has cut its own path only, and the final name
lies inside the path. -/
theorem walk_frame {s t : State} {p dir : Nat} {m : Store} (h : PathAt mem path cs slash)
    (hc : WalkCond mem path cs slash) (hw : walk path mem s = .ok (some (p, dir), m, t)) :
    Overwritten mem m path (spell cs slash).length ∧ path ≤ dir ∧
      ∃ c, ReadsAs (dir, m) c ∧ PlainName c ∧ dir + c.length ≤ path + (spell cs slash).length := by
  obtain ⟨l, refused, hr, hfits, hlong⟩ := (walkNames_right h).mpr hc
  by_cases hfit : ∀ c ∈ cs, c.length < dName
  · rw [(walk_follow hr s).2 (hfits hfit).1] at hw
    obtain ⟨q, hq, rfl, hdir⟩ := followWalk_end hw
    have hd := hdir p dir rfl
    obtain ⟨l', hl', hall'⟩ := (h.dirs_iff hfit).mpr (hc.1 hfit)
    have hll : l = l' := by
      have hnames := hr
      unfold walkNames at hnames
      obtain ⟨dir₀, m₀⟩ : Nat × Store := getDirLoop mem path dName 0
      rw [getDir_ok h.ne] at hnames
      simp only [bind, Except.bind] at hnames
      split_ifs at hnames
      · cases hnames
        cases (hfits hfit).1
      · rw [hl'] at hnames
        cases hnames
        rfl
    subst hll
    obtain ⟨hover, hge, c, hread, hplain, hle⟩ := pathDirs_frame h.ne h.nonempty h.plain hfit
      h.spelled (hc.1 hfit) hl' q hq
    rw [hd] at hge hle
    obtain ⟨dir', m'⟩ := q
    simp only at hd
    subst hd
    exact ⟨hover, hge, c, hread, hplain, hle⟩
  · obtain ⟨m', hm'⟩ := (walk_follow hr s).1 (hlong hfit).1
    rw [hm'] at hw
    cases hw

/-- Cutting another path does not disturb this one. -/
theorem PathAt.overwritten {path' : Nat} (h : PathAt mem path cs slash)
    (ho : Overwritten mem mem' path' n)
    (hapart : path + (spell cs slash).length < path' ∨ path' + n < path) :
    PathAt mem' path cs slash :=
  ⟨h.ne, h.nonempty, h.plain, ho.keeps (by omega) h.spelled, h.inSpace⟩

/-- The condition on a path stays when nulls are written over another. -/
theorem WalkCond.overwritten {path' : Nat} (h : WalkCond mem path cs slash)
    (ho : Overwritten mem mem' path' n) : WalkCond mem' path cs slash := by
  refine ⟨fun hfit => ⟨(h.1 hfit).1, ?_⟩, h.2⟩
  rcases (h.1 hfit).2 with hslash | hlast | hnext
  · exact Or.inl hslash
  · exact Or.inr (Or.inl hlast)
  · refine Or.inr (Or.inr ?_)
    rcases ho (path + (spell cs slash).length + 1) with heq | ⟨_, _, hz⟩
    · exact heq.trans hnext
    · exact hz

/-- Two strings of the same memory with a byte between them. -/
def Apart (path n path' n' : Nat) : Prop := path + n < path' ∨ path' + n' < path

end Frame

section Ln

variable {mem mem' : Store} {src src' dst dst' : Nat} {cs ds : List (List UInt8)} {a b : Bool}
  {s : State}

/-- The final name of the first path survives the second walk. -/
theorem ReadsAs.overwritten {m m' : Store} {dir n path : Nat} {c : List UInt8}
    (h : ReadsAs (dir, m) c) (ho : Overwritten m m' path n)
    (hapart : dir + c.length < path ∨ path + n < dir) : ReadsAs (dir, m') c :=
  ⟨h.1, ho.keeps (by omega) h.2⟩

/-- `do_ln` depends on its two walks and the final names only. -/
theorem doLn_alike (h : PathAt mem src cs a) (h' : PathAt mem' src' cs a)
    (hd : PathAt mem dst ds b) (hd' : PathAt mem' dst' ds b)
    (hc : WalkCond mem src cs a) (hc' : WalkCond mem' src' cs a)
    (hcd : WalkCond mem dst ds b) (hcd' : WalkCond mem' dst' ds b)
    (hapart : Apart src (spell cs a).length dst (spell ds b).length)
    (hapart' : Apart src' (spell cs a).length dst' (spell ds b).length) :
    effect (doLn src dst mem s) = effect (doLn src' dst' mem' s) := by
  unfold Apart at hapart hapart'
  unfold doLn
  rcases (walk_alike (s := s) h h' hc hc').cases with ⟨e, hx, hy⟩ | ⟨m, m', t, hx, hy⟩ |
    ⟨p, dir, dir', m, m', t, hx, hy, hsame⟩
  · simp only [hx, hy, bind, Except.bind]
  · simp only [hx, hy, bind, Except.bind]
    rfl
  · rw [hx, hy]
    simp only [bind, Except.bind]
    obtain ⟨ho, hge, c, hread, hplain, hle⟩ := walk_frame h hc hx
    obtain ⟨ho', hge', c', hread', hplain', hle'⟩ := walk_frame h' hc' hy
    have hdm := hd.overwritten ho (by omega)
    have hdm' := hd'.overwritten ho' (by omega)
    have hcm := hcd.overwritten ho
    have hcm' := hcd'.overwritten ho'
    rcases (walk_alike (s := t) hdm hdm' hcm hcm').cases with ⟨e, hz, hw⟩ | ⟨k, k', u, hz, hw⟩ |
      ⟨q, ddir, ddir', k, k', u, hz, hw, hdsame⟩
    · rw [hz, hw]
    · rw [hz, hw]
      rfl
    · rw [hz, hw]
      simp only
      obtain ⟨hok, _⟩ := walk_frame hdm hcm hz
      obtain ⟨hok', _⟩ := walk_frame hdm' hcm' hw
      have hfinal : SameString (dir, k) (dir', k') := by
        obtain ⟨e, he, helt, hre, hre'⟩ := hsame
        have hlen : e.length = c.length := (he.ends hre.2).unique (hplain.ends hread.2)
        have hlen' : e.length = c'.length := (he.ends hre'.2).unique (hplain'.ends hread'.2)
        exact ⟨e, he, helt, hre.overwritten hok (by omega), hre'.overwritten hok' (by omega)⟩
      rw [searchDentry_string hfinal]
      cases searchDentry p dir' (iDir ||| iFile) k' u with
      | error e => rfl
      | ok v =>
          simp only
          by_cases hnone : v.1 = minusOne
          · rw [if_pos hnone, if_pos hnone]
            rfl
          · rw [if_neg hnone, if_neg hnone, searchDentry_string hdsame]
            cases searchDentry q ddir' dLink k' v.2 with
            | error e => rfl
            | ok w =>
                simp only
                by_cases hfound : w.1 ≠ minusOne
                · rw [if_pos hfound, if_pos hfound]
                  rfl
                · rw [if_neg hfound, if_neg hfound, createDentry_string hdsame]
                  generalize createDentry q v.1 ddir' dLink k' _ = z
                  cases z <;> rfl

end Ln

/-! ## The calls on paths -/

section Calls

variable {mem mem' : Store} {path : Nat} {cs : List (List UInt8)} {slash : Bool}

/-- The same path in a memory that agrees up to the zero byte. -/
theorem PathAt.congr (h : PathAt mem path cs slash)
    (heq : ∀ m, m ≤ (spell cs slash).length → mem' (path + m) = mem (path + m)) :
    PathAt mem' path cs slash :=
  ⟨h.ne, h.nonempty, h.plain, h.spelled.congr heq, h.inSpace⟩

/-- A path with a component that is too long is refused. -/
theorem walkNames_refused (h : PathAt mem path cs slash) (hc : WalkCond mem path cs slash)
    (hlong : ¬ ∀ c ∈ cs, c.length < dName) (s : State) :
    ∃ mem', walk path mem s = .ok (none, mem', s) := by
  obtain ⟨l, refused, hr, _, hno⟩ := (walkNames_right h).mpr hc
  exact (walk_follow hr s).1 (hno hlong).1

/-- What a call with this path does in every memory that spells it the same way. -/
structure SameOutcome (mem mem' : Store) (path : Nat) : Prop where
  make : ∀ type s, effect (makePath type path mem s) = effect (makePath type path mem' s)
  remove : ∀ type s, effect (removePath type path mem s) = effect (removePath type path mem' s)

/-- The two memories spell the same path at this address. -/
def SpelledAlike (mem mem' : Store) (path : Nat) (cs : List (List UInt8)) (slash : Bool) : Prop :=
  ∀ m, m ≤ (spell cs slash).length → mem' (path + m) = mem (path + m)

/-- What becomes of a path: its components are visited in order, and one with a component that is
too long is refused, exactly under a condition on the memory at its end; the calls do nothing with a
path but follow what their loop hands on, and in two memories that spell it alike and meet the
condition they do the same. -/
structure Resolved (mem : Store) (path : Nat) (cs : List (List UInt8)) (slash : Bool) : Prop where
  walk_iff : PathRight (walkNames path mem) cs ↔ WalkCond mem path cs slash
  cd_iff : PathRight (cdNames path mem) cs ↔ CdCond mem path cs slash
  walk_refused : ∀ s l, walkNames path mem = .ok (l, true) →
    ∃ mem', walk path mem s = .ok (none, mem', s)
  walk_follows : ∀ s l, walkNames path mem = .ok (l, false) →
    walk path mem s = followWalk l (currentId s) s
  cd_follows : ∀ s l refused, cdNames path mem = .ok (l, refused) →
    cdLoop addressSpace (currentId s) path mem s = followCd l (currentId s) s
  refused : WalkCond mem path cs slash → ¬ (∀ c ∈ cs, c.length < dName) → ∀ type s, ∃ mem',
    makePath type path mem s = .ok (0, mem', s) ∧ removePath type path mem s = .ok (0, mem', s) ∧
      ∀ dst, doLn path dst mem s = .ok (0, mem', s)
  walk_alike : ∀ mem', SpelledAlike mem mem' path cs slash →
    WalkCond mem path cs slash → WalkCond mem' path cs slash → SameOutcome mem mem' path
  cd_alike : ∀ mem', SpelledAlike mem mem' path cs slash →
    CdCond mem path cs slash → CdCond mem' path cs slash →
      ∀ s, effect (doCd path mem s) = effect (doCd path mem' s)
  ln_alike : ∀ mem', SpelledAlike mem mem' path cs slash →
    ∀ dst ds b, PathAt mem dst ds b → SpelledAlike mem mem' dst ds b →
      Apart path (spell cs slash).length dst (spell ds b).length →
      WalkCond mem path cs slash → WalkCond mem' path cs slash →
      WalkCond mem dst ds b → WalkCond mem' dst ds b →
      ∀ s, effect (doLn path dst mem s) = effect (doLn path dst mem' s)

/-- **Resolving a path.**  Every path made of components resolves as `Resolved` says. -/
theorem paths_resolved (h : PathAt mem path cs slash) : Resolved mem path cs slash where
  walk_iff := walkNames_right h
  cd_iff := cdNames_right h
  walk_refused s _ hr := (walk_follow hr s).1 rfl
  walk_follows s _ hr := (walk_follow hr s).2 rfl
  cd_follows s l refused hr := by
    unfold cdNames at hr
    cases hdirs : pathDirs addressSpace path mem with
    | error e => rw [hdirs] at hr; cases hr
    | ok l' =>
        rw [hdirs] at hr
        cases hr
        exact cdLoop_follow hdirs
  refused hc hlong type s := by
    obtain ⟨mem', hw⟩ := walkNames_refused h hc hlong s
    refine ⟨mem', ?_, ?_, fun dst => ?_⟩
    · unfold makePath
      rw [hw]
      rfl
    · unfold removePath
      rw [hw]
      rfl
    · unfold doLn
      simp only [hw, bind, Except.bind]
  walk_alike mem' heq hc hc' :=
    ⟨fun _ _ => makePath_alike (walk_alike h (h.congr heq) hc hc'),
      fun _ _ => removePath_alike (walk_alike h (h.congr heq) hc hc')⟩
  cd_alike mem' heq hc hc' s := doCd_alike h (h.congr heq) hc hc'
  ln_alike mem' heq dst ds b hd heqd hapart hc hc' hcd hcd' s :=
    doLn_alike h (h.congr heq) hd (hd.congr heqd) hc hc' hcd hcd' hapart hapart

end Calls

/-! ## Two paths in memory -/

/-- The sample memory holds the path `a/b`. -/
theorem memPaths_path : PathAt memPaths 120 [[97], [98]] false where
  ne := by decide
  nonempty := by decide
  plain c hc := by
    simp only [List.mem_cons, List.not_mem_nil, or_false] at hc
    rcases hc with rfl | rfl
    · exact ⟨by decide, List.forall_mem_singleton.2 (by decide)⟩
    · exact ⟨by decide, List.forall_mem_singleton.2 (by decide)⟩
  spelled := ⟨⟨rfl, rfl, rfl, trivial⟩, rfl⟩
  inSpace := by
    change 123 < addressSpace
    unfold addressSpace
    omega

/-- The path `a/b`, with zeros behind it. -/
theorem paths_resolved_ab :
    PathRight (walkNames 120 memPaths) [[97], [98]] ∧
      PathRight (cdNames 120 memPaths) [[97], [98]] := by
  have h := paths_resolved memPaths_path
  have hfit : ∀ c ∈ [[(97 : UInt8)], [98]], c.length < dName := by decide
  have hvis : Visitable memPaths 120 [[97], [98]] false :=
    ⟨by decide, Or.inr (Or.inr rfl)⟩
  exact ⟨h.walk_iff.mpr ⟨fun _ => hvis, fun hno => absurd hfit hno⟩, h.cd_iff.mpr ⟨hfit, hvis⟩⟩

/-- The string `a`, with the string `b` right behind it. -/
def memTail : Store := wr8 memA 102 98

/-- `mkdir a` makes nothing when another string follows in memory: the loop goes on
behind the end of the path. -/
theorem path_read_past_end :
    PathAt memTail 100 [[97]] false ∧ ¬ PathRight (walkNames 100 memTail) [[97]] ∧
      (∃ r, doMkdir 100 memA freshState = .ok r ∧ imap r.2.2.disk 1 = 1) ∧
      ∃ r, doMkdir 100 memTail freshState = .ok r ∧ imap r.2.2.disk 1 = 0 := by
  have hpath : PathAt memTail 100 [[97]] false := by
    refine ⟨by decide, by decide, fun c hc => ?_, ⟨⟨rfl, trivial⟩, rfl⟩, ?_⟩
    · rw [List.mem_singleton] at hc
      subst hc
      exact ⟨by decide, List.forall_mem_singleton.2 (by decide)⟩
    · change 101 < addressSpace
      unfold addressSpace
      omega
  refine ⟨hpath, fun hright => ?_, exists_of_returns (by decide +kernel),
    exists_of_returns (by decide +kernel)⟩
  have hcond := ((walkNames_right hpath).mp hright).1 (by decide)
  rcases hcond.2 with hslash | hlast | hnext
  · cases hslash
  · exact absurd hlast (by decide)
  · exact absurd hnext (by decide)

end Fs
