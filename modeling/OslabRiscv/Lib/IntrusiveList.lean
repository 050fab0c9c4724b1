import Mathlib.Tactic

/-!
# Intrusive doubly linked lists

Nodes carry a forward and a backward link, either of which may be null.  A
`Ring` is a head node with the sequence of nodes that following the forward
links visits before it comes back; the backward links are its inverse.  `Rings`
is a whole heap of disjoint rings with all other nodes detached.

The two edits every list library is made of, splicing a node in and out, are
shown to append to a ring's sequence and to erase from it, and to leave every
other ring alone.
-/

namespace IntrusiveList

variable {ν : Type}

/-- The links of all nodes; `none` is the null pointer. -/
structure Links (ν : Type) where
  next : ν → Option ν
  prev : ν → Option ν

section Segments

variable {h h' : Links ν} {a b x : ν} {l l' : List ν}

/-- From `a` the forward links lead through `l` to `b`, and the backward links
the same way back. -/
def Segment (h : Links ν) : ν → List ν → ν → Prop
  | a, [], b => h.next a = some b ∧ h.prev b = some a
  | a, x :: l, b => (h.next a = some x ∧ h.prev x = some a) ∧ Segment h x l b

/-- The last node before the end. -/
def lastOf (a : ν) (l : List ν) : ν := l.getLast?.getD a

/-- The last node of a longer list. -/
theorem lastOf_cons (a y : ν) (l : List ν) : lastOf a (y :: l) = lastOf y l := by
  unfold lastOf
  rw [List.getLast?_cons]
  rfl

/-- The last node is the start or one of the list. -/
theorem lastOf_mem (a : ν) (l : List ν) : lastOf a l ∈ a :: l := by
  induction l generalizing a with
  | nil => exact List.mem_cons_self
  | cons y l ih =>
      rw [lastOf_cons]
      exact List.mem_cons_of_mem _ (ih y)

/-- The start leads to the first node, or to the end. -/
theorem Segment.next_eq (hs : Segment h a l b) : h.next a = some (l.head?.getD b) := by
  cases l with
  | nil => exact hs.1
  | cons x l => exact hs.1.1

/-- The end leads back to the last node, or to the start. -/
theorem Segment.prev_eq (hs : Segment h a l b) : h.prev b = some (lastOf a l) := by
  induction l generalizing a with
  | nil => exact hs.2
  | cons x l ih =>
      rw [lastOf_cons]
      exact ih hs.2

/-- A segment can be cut at any of its nodes. -/
theorem segment_append :
    Segment h a (l ++ x :: l') b ↔ Segment h a l x ∧ Segment h x l' b := by
  induction l generalizing a with
  | nil => exact Iff.rfl
  | cons y l ih =>
      change _ ∧ Segment h y (l ++ x :: l') b ↔ (_ ∧ Segment h y l x) ∧ _
      rw [ih]
      exact and_assoc.symm

/-- A segment reads the forward links of its nodes and the backward links of
their successors. -/
theorem Segment.congr (hs : Segment h a l b) (hnext : ∀ y ∈ a :: l, h'.next y = h.next y)
    (hprev : ∀ y ∈ l, h'.prev y = h.prev y) (hend : h'.prev b = h.prev b) :
    Segment h' a l b := by
  induction l generalizing a with
  | nil => exact ⟨(hnext a List.mem_cons_self).trans hs.1, hend.trans hs.2⟩
  | cons x l ih =>
      refine ⟨⟨(hnext a List.mem_cons_self).trans hs.1.1,
        (hprev x List.mem_cons_self).trans hs.1.2⟩, ih hs.2 ?_ ?_⟩
      · intro y hy
        exact hnext y (List.mem_cons_of_mem _ hy)
      · intro y hy
        exact hprev y (List.mem_cons_of_mem _ hy)

/-- The last link of a segment is turned to another node. -/
theorem Segment.retarget (hs : Segment h a l b) (hnd : (a :: l).Nodup)
    (hnext : ∀ y ∈ a :: l, y ≠ lastOf a l → h'.next y = h.next y)
    (hlast : h'.next (lastOf a l) = some x) (hprev : ∀ y ∈ l, h'.prev y = h.prev y)
    (hx : h'.prev x = some (lastOf a l)) : Segment h' a l x := by
  induction l generalizing a with
  | nil => exact ⟨hlast, hx⟩
  | cons y l ih =>
      rw [lastOf_cons] at hnext hlast hx
      have hne : a ≠ lastOf y l := by
        intro heq
        have hmem := lastOf_mem y l
        rw [← heq] at hmem
        exact (List.nodup_cons.mp hnd).1 hmem
      refine ⟨⟨(hnext a List.mem_cons_self hne).trans hs.1.1,
        (hprev y List.mem_cons_self).trans hs.1.2⟩,
        ih hs.2 (List.nodup_cons.mp hnd).2 ?_ hlast ?_ hx⟩
      · intro z hz
        exact hnext z (List.mem_cons_of_mem _ hz)
      · intro z hz
        exact hprev z (List.mem_cons_of_mem _ hz)

end Segments

/-! ## One ring -/

/-- The ring of head `a` holds the sequence `l`. -/
def Ring (h : Links ν) (a : ν) (l : List ν) : Prop := (a :: l).Nodup ∧ Segment h a l a

section Ring

variable {h h' : Links ν} {a : ν} {l : List ν}

theorem Ring.congr (hr : Ring h a l) (hnext : ∀ y ∈ a :: l, h'.next y = h.next y)
    (hprev : ∀ y ∈ a :: l, h'.prev y = h.prev y) : Ring h' a l :=
  ⟨hr.1, hr.2.congr hnext (fun y hy => hprev y (List.mem_cons_of_mem _ hy))
    (hprev a List.mem_cons_self)⟩

/-- The head leads to the first node. -/
theorem Ring.next_head (hr : Ring h a l) : h.next a = some (l.head?.getD a) := hr.2.next_eq

/-- The head leads back to the last node. -/
theorem Ring.prev_head (hr : Ring h a l) : h.prev a = some (lastOf a l) := hr.2.prev_eq

/-- A ring is empty when its head is linked to itself. -/
theorem Ring.next_head_eq_self (hr : Ring h a l) : h.next a = some a ↔ l = [] := by
  rw [hr.next_head]
  cases l with
  | nil => exact ⟨fun _ => rfl, fun _ => rfl⟩
  | cons y l =>
      refine ⟨fun heq => ?_, fun heq => by cases heq⟩
      have hya : y = a := Option.some.inj heq
      exact absurd (hya ▸ List.mem_cons_self) (List.nodup_cons.mp hr.1).1

end Ring

/-! ## A heap of rings -/

/-- The heads in `H` have disjoint rings with the sequences `q`, and every other
node is detached. -/
structure Rings (h : Links ν) (H : ν → Prop) (q : ν → List ν) : Prop where
  ring : ∀ a, H a → Ring h a (q a)
  disjoint : ∀ a b, H a → H b → ∀ x, x ∈ a :: q a → x ∈ b :: q b → a = b
  detached : ∀ x, ¬ H x → (∀ a, H a → x ∉ q a) → h.next x = none ∧ h.prev x = none

section Rings

variable {h : Links ν} {H : ν → Prop} {q : ν → List ν} {a b x : ν}

/-- No node is twice in a ring. -/
theorem Rings.nodup (hr : Rings h H q) (ha : H a) : (q a).Nodup :=
  (List.nodup_cons.mp (hr.ring a ha).1).2

/-- A node of a ring is not a head. -/
theorem Rings.not_head (hr : Rings h H q) (ha : H a) (hx : x ∈ q a) : ¬ H x := by
  intro hhead
  have heq := hr.disjoint a x ha hhead x (List.mem_cons_of_mem _ hx) List.mem_cons_self
  rw [heq] at hx
  exact (List.nodup_cons.mp (hr.ring x hhead).1).1 hx

/-- A node is in one ring at most. -/
theorem Rings.unique (hr : Rings h H q) (ha : H a) (hb : H b) (hxa : x ∈ q a) (hxb : x ∈ q b) :
    a = b :=
  hr.disjoint a b ha hb x (List.mem_cons_of_mem _ hxa) (List.mem_cons_of_mem _ hxb)

/-- The sequences of nodes that are no heads do not matter. -/
theorem Rings.congr {H' : ν → Prop} {q' : ν → List ν} (hr : Rings h H q) (hH : ∀ y, H' y ↔ H y)
    (hq : ∀ y, H y → q' y = q y) : Rings h H' q' := by
  refine ⟨?_, ?_, ?_⟩
  · intro b hb
    rw [hq b ((hH b).mp hb)]
    exact hr.ring b ((hH b).mp hb)
  · intro b c hb hc y hyb hyc
    rw [hq b ((hH b).mp hb)] at hyb
    rw [hq c ((hH c).mp hc)] at hyc
    exact hr.disjoint b c ((hH b).mp hb) ((hH c).mp hc) y hyb hyc
  · intro y hy hyfree
    refine hr.detached y (fun hcon => hy ((hH y).mpr hcon)) ?_
    intro b hb
    rw [← hq b hb]
    exact hyfree b ((hH b).mpr hb)

end Rings

section Edits

variable [DecidableEq ν]

def Links.setNext (h : Links ν) (a : ν) (v : Option ν) : Links ν :=
  { h with next := Function.update h.next a v }

def Links.setPrev (h : Links ν) (a : ν) (v : Option ν) : Links ν :=
  { h with prev := Function.update h.prev a v }

/-- Put `x` between `p` and `n`. -/
def spliceIn (p x n : ν) (h : Links ν) : Links ν :=
  (((h.setNext x (some n)).setPrev x (some p)).setNext p (some x)).setPrev n (some x)

/-- Join `p` and `n`, and detach `x`. -/
def spliceOut (p x n : ν) (h : Links ν) : Links ν :=
  (((h.setNext p (some n)).setPrev n (some p)).setPrev x none).setNext x none

section Read

variable {h : Links ν} {p x n y : ν}

theorem spliceIn_next_of_ne (hx : y ≠ x) (hp : y ≠ p) : (spliceIn p x n h).next y = h.next y := by
  simp [spliceIn, Links.setNext, Links.setPrev, Function.update_of_ne, hx, hp]

theorem spliceIn_prev_of_ne (hx : y ≠ x) (hn : y ≠ n) : (spliceIn p x n h).prev y = h.prev y := by
  simp [spliceIn, Links.setNext, Links.setPrev, Function.update_of_ne, hx, hn]

/-- The left neighbour leads to the new node. -/
theorem spliceIn_next_left : (spliceIn p x n h).next p = some x := by
  simp [spliceIn, Links.setNext, Links.setPrev]

/-- The right neighbour leads back to it. -/
theorem spliceIn_prev_right : (spliceIn p x n h).prev n = some x := by
  simp [spliceIn, Links.setNext, Links.setPrev]

theorem spliceIn_next_self (hx : x ≠ p) : (spliceIn p x n h).next x = some n := by
  simp [spliceIn, Links.setNext, Links.setPrev, Function.update_of_ne, hx]

theorem spliceIn_prev_self (hx : x ≠ n) : (spliceIn p x n h).prev x = some p := by
  simp [spliceIn, Links.setNext, Links.setPrev, Function.update_of_ne, hx]

theorem spliceOut_next_of_ne (hx : y ≠ x) (hp : y ≠ p) :
    (spliceOut p x n h).next y = h.next y := by
  simp [spliceOut, Links.setNext, Links.setPrev, Function.update_of_ne, hx, hp]

theorem spliceOut_prev_of_ne (hx : y ≠ x) (hn : y ≠ n) :
    (spliceOut p x n h).prev y = h.prev y := by
  simp [spliceOut, Links.setNext, Links.setPrev, Function.update_of_ne, hx, hn]

/-- The left neighbour leads past the node. -/
theorem spliceOut_next_left (hx : p ≠ x) : (spliceOut p x n h).next p = some n := by
  simp [spliceOut, Links.setNext, Links.setPrev, Function.update_of_ne, hx]

/-- The right neighbour leads back past it. -/
theorem spliceOut_prev_right (hx : n ≠ x) : (spliceOut p x n h).prev n = some p := by
  simp [spliceOut, Links.setNext, Links.setPrev, Function.update_of_ne, hx]

theorem spliceOut_self : (spliceOut p x n h).next x = none ∧ (spliceOut p x n h).prev x = none := by
  simp [spliceOut, Links.setNext, Links.setPrev]

end Read

/-! ## Edits of one ring -/

section Ring

variable {h : Links ν} {a x : ν} {l : List ν}

/-- Splicing a node in before the head appends it. -/
theorem Ring.append (hr : Ring h a l) (hx : x ∉ a :: l) :
    Ring (spliceIn (lastOf a l) x a h) a (l ++ [x]) := by
  have hlast := lastOf_mem a l
  have hxl : x ≠ lastOf a l := fun heq => hx (heq ▸ hlast)
  have hxa : x ≠ a := fun heq => hx (heq ▸ List.mem_cons_self)
  refine ⟨?_, ?_⟩
  · rw [← List.cons_append, List.nodup_append]
    refine ⟨hr.1, List.nodup_singleton x, ?_⟩
    intro y hy z hz heq
    rw [List.mem_singleton.mp hz] at heq
    exact hx (heq ▸ hy)
  · rw [segment_append]
    refine ⟨?_, spliceIn_next_self hxl, spliceIn_prev_right⟩
    refine hr.2.retarget hr.1 ?_ spliceIn_next_left ?_ (spliceIn_prev_self hxa)
    · intro y hy hne
      exact spliceIn_next_of_ne (fun heq => hx (heq ▸ hy)) hne
    · intro y hy
      refine spliceIn_prev_of_ne (fun heq => hx (heq ▸ List.mem_cons_of_mem _ hy)) ?_
      intro heq
      exact (List.nodup_cons.mp hr.1).1 (heq ▸ hy)

/-- The neighbours of a node of a ring, and the ring without it. -/
theorem Ring.erase (hr : Ring h a l) (hx : x ∈ l) :
    ∃ p n, h.prev x = some p ∧ h.next x = some n ∧ p ∈ a :: l ∧ n ∈ a :: l ∧
      Ring (spliceOut p x n h) a (l.erase x) := by
  obtain ⟨l₁, l₂, hl⟩ := List.append_of_mem hx
  subst hl
  obtain ⟨hnd, hseg⟩ := hr
  obtain ⟨h₁, h₂⟩ := segment_append.mp hseg
  have hnd' := hnd
  rw [← List.cons_append, List.nodup_append] at hnd'
  obtain ⟨hnd₁, hnd₂, hdisj⟩ := hnd'
  have hx₁ : x ∉ a :: l₁ := fun hmem => hdisj x hmem x List.mem_cons_self rfl
  have hx₂ : x ∉ l₂ := (List.nodup_cons.mp hnd₂).1
  have hl₁₂ : ∀ y ∈ a :: l₁, y ∉ l₂ := fun y hy hy' =>
    hdisj y hy y (List.mem_cons_of_mem _ hy') rfl
  have herase : (l₁ ++ x :: l₂).erase x = l₁ ++ l₂ := by
    rw [List.erase_append_right _ (fun hmem => hx₁ (List.mem_cons_of_mem _ hmem)),
      List.erase_cons_head]
  have hsub : ∀ y, y ∈ a :: (l₁ ++ l₂) → y ∈ a :: (l₁ ++ x :: l₂) := by
    intro y hy
    rw [List.mem_cons, List.mem_append] at hy ⊢
    rcases hy with hy | hy | hy
    · exact Or.inl hy
    · exact Or.inr (Or.inl hy)
    · exact Or.inr (Or.inr (List.mem_cons_of_mem _ hy))
  have hlast := lastOf_mem a l₁
  have hpx : lastOf a l₁ ≠ x := fun heq => hx₁ (heq ▸ hlast)
  have hax : a ≠ x := fun heq => hx₁ (heq ▸ List.mem_cons_self)
  refine ⟨lastOf a l₁, l₂.head?.getD a, h₁.prev_eq, h₂.next_eq, ?_, ?_, ?_⟩
  · apply hsub
    rw [← List.cons_append]
    exact List.mem_append_left _ hlast
  · apply hsub
    cases l₂ with
    | nil => exact List.mem_cons_self
    | cons y l₂ => exact List.mem_cons_of_mem _ (List.mem_append_right _ List.mem_cons_self)
  · rw [herase]
    refine ⟨?_, ?_⟩
    · refine hnd.sublist ?_
      rw [List.cons_sublist_cons]
      exact (List.sublist_cons_self x l₂).append_left l₁
    · -- the segment before `x` now ends at the node behind it
      cases l₂ with
      | nil =>
          rw [List.append_nil]
          refine h₁.retarget hnd₁ ?_ (spliceOut_next_left hpx) ?_ (spliceOut_prev_right hax)
          · intro y hy hne
            exact spliceOut_next_of_ne (fun heq => hx₁ (heq ▸ hy)) hne
          · intro y hy
            refine spliceOut_prev_of_ne (fun heq => hx₁ (heq ▸ List.mem_cons_of_mem _ hy)) ?_
            intro heq
            have hya : y = a := heq
            exact (List.nodup_cons.mp hnd₁).1 (hya ▸ hy)
      | cons n l₂ =>
          have hn : n ∈ n :: l₂ := List.mem_cons_self
          have hnx : n ≠ x := fun heq => hx₂ (heq ▸ hn)
          have hna : n ≠ a := fun heq => hl₁₂ a List.mem_cons_self (heq ▸ hn)
          have hnl : n ∉ l₂ := (List.nodup_cons.mp (List.nodup_cons.mp hnd₂).2).1
          rw [segment_append]
          refine ⟨h₁.retarget hnd₁ ?_ (spliceOut_next_left hpx) ?_ (spliceOut_prev_right hnx),
            h₂.2.congr ?_ ?_ ?_⟩
          · intro y hy hne
            exact spliceOut_next_of_ne (fun heq => hx₁ (heq ▸ hy)) hne
          · intro y hy
            refine spliceOut_prev_of_ne (fun heq => hx₁ (heq ▸ List.mem_cons_of_mem _ hy)) ?_
            intro heq
            exact hl₁₂ y (List.mem_cons_of_mem _ hy) (heq ▸ hn)
          · intro y hy
            refine spliceOut_next_of_ne (fun heq => hx₂ (heq ▸ hy)) ?_
            intro heq
            exact hl₁₂ _ hlast (heq ▸ hy)
          · intro y hy
            refine spliceOut_prev_of_ne (fun heq => hx₂ (heq ▸ List.mem_cons_of_mem _ hy)) ?_
            intro heq
            have hyn : y = n := heq
            exact hnl (hyn ▸ hy)
          · exact spliceOut_prev_of_ne hax (Ne.symm hna)

end Ring

/-! ## Edits of a heap of rings -/

section Rings

variable {h : Links ν} {H : ν → Prop} {q : ν → List ν} {a x : ν}

/-- A detached node is appended to a ring. -/
theorem Rings.append (hr : Rings h H q) (ha : H a) (hx : ¬ H x) (hfree : ∀ b, H b → x ∉ q b) :
    Rings (spliceIn (lastOf a (q a)) x a h) H (Function.update q a (q a ++ [x])) := by
  have hxa : x ≠ a := fun heq => hx (heq ▸ ha)
  have hnot : ∀ b, H b → x ∉ b :: q b := by
    intro b hb hmem
    rcases List.mem_cons.mp hmem with heq | hmem
    · exact hx (heq ▸ hb)
    · exact hfree b hb hmem
  have hmem : ∀ b y, y ∈ b :: Function.update q a (q a ++ [x]) b → y ≠ x → y ∈ b :: q b := by
    intro b y hy hyx
    by_cases hba : b = a
    · subst hba
      rw [Function.update_self, List.mem_cons, List.mem_append, List.mem_singleton] at hy
      rw [List.mem_cons]
      rcases hy with hy | hy | hy
      · exact Or.inl hy
      · exact Or.inr hy
      · exact absurd hy hyx
    · rw [Function.update_of_ne hba] at hy
      exact hy
  have honly : ∀ b, H b → x ∈ b :: Function.update q a (q a ++ [x]) b → b = a := by
    intro b hb hxb
    by_contra hba
    rw [Function.update_of_ne hba] at hxb
    exact hnot b hb hxb
  refine ⟨?_, ?_, ?_⟩
  · intro b hb
    by_cases hba : b = a
    · subst hba
      rw [Function.update_self]
      exact (hr.ring b hb).append (hnot b hb)
    · rw [Function.update_of_ne hba]
      have hlast := lastOf_mem a (q a)
      refine (hr.ring b hb).congr ?_ ?_
      · intro y hy
        refine spliceIn_next_of_ne (fun heq => hnot b hb (heq ▸ hy)) ?_
        intro heq
        exact hba (hr.disjoint b a hb ha y hy (heq ▸ hlast))
      · intro y hy
        refine spliceIn_prev_of_ne (fun heq => hnot b hb (heq ▸ hy)) ?_
        intro heq
        exact hba (hr.disjoint b a hb ha y hy (heq ▸ List.mem_cons_self))
  · intro b c hb hc y hyb hyc
    by_cases hyx : y = x
    · subst hyx
      rw [honly b hb hyb, honly c hc hyc]
    · exact hr.disjoint b c hb hc y (hmem b y hyb hyx) (hmem c y hyc hyx)
  · intro y hy hyfree
    have hyx : y ≠ x := by
      intro heq
      apply hyfree a ha
      rw [Function.update_self, heq]
      exact List.mem_append_right _ (List.mem_singleton.mpr rfl)
    have hold : ∀ b, H b → y ∉ q b := by
      intro b hb hmem'
      apply hyfree b hb
      by_cases hba : b = a
      · subst hba
        rw [Function.update_self]
        exact List.mem_append_left _ hmem'
      · rw [Function.update_of_ne hba]
        exact hmem'
    have hya : y ∉ a :: q a := by
      intro hmem'
      rcases List.mem_cons.mp hmem' with heq | hmem'
      · exact hy (heq ▸ ha)
      · exact hold a ha hmem'
    rw [spliceIn_next_of_ne hyx (fun heq => hya (heq ▸ lastOf_mem a (q a))),
      spliceIn_prev_of_ne hyx (fun heq => hya (heq ▸ List.mem_cons_self))]
    exact hr.detached y hy hold

/-- A node of a ring is taken out and detached. -/
theorem Rings.erase (hr : Rings h H q) (ha : H a) (hx : x ∈ q a) :
    ∃ p n, h.prev x = some p ∧ h.next x = some n ∧
      Rings (spliceOut p x n h) H (Function.update q a ((q a).erase x)) := by
  obtain ⟨p, n, hp, hn, hpm, hnm, hring⟩ := (hr.ring a ha).erase hx
  have hxH := hr.not_head ha hx
  have hsub : ∀ b y, y ∈ b :: Function.update q a ((q a).erase x) b → y ∈ b :: q b := by
    intro b y hy
    by_cases hba : b = a
    · subst hba
      rw [Function.update_self] at hy
      rcases List.mem_cons.mp hy with hy | hy
      · exact hy ▸ List.mem_cons_self
      · exact List.mem_cons_of_mem _ (List.mem_of_mem_erase hy)
    · rw [Function.update_of_ne hba] at hy
      exact hy
  have hother : ∀ b, H b → b ≠ a → ∀ y ∈ b :: q b, y ∉ a :: q a := by
    intro b hb hba y hy hya
    exact hba (hr.disjoint b a hb ha y hy hya)
  refine ⟨p, n, hp, hn, ?_, ?_, ?_⟩
  · intro b hb
    by_cases hba : b = a
    · subst hba
      rw [Function.update_self]
      exact hring
    · rw [Function.update_of_ne hba]
      have hne : ∀ z, z ∈ a :: q a → ∀ y ∈ b :: q b, y ≠ z := fun z hz y hy heq =>
        hother b hb hba y hy (heq ▸ hz)
      have hxm : x ∈ a :: q a := List.mem_cons_of_mem _ hx
      refine (hr.ring b hb).congr ?_ ?_
      · intro y hy
        exact spliceOut_next_of_ne (hne x hxm y hy) (hne p hpm y hy)
      · intro y hy
        exact spliceOut_prev_of_ne (hne x hxm y hy) (hne n hnm y hy)
  · intro b c hb hc y hyb hyc
    exact hr.disjoint b c hb hc y (hsub b y hyb) (hsub c y hyc)
  · intro y hy hyfree
    by_cases hyx : y = x
    · rw [hyx]
      exact spliceOut_self
    · have hold : ∀ b, H b → y ∉ q b := by
        intro b hb hmem
        apply hyfree b hb
        by_cases hba : b = a
        · subst hba
          rw [Function.update_self]
          exact (List.mem_erase_of_ne hyx).mpr hmem
        · rw [Function.update_of_ne hba]
          exact hmem
      have hya : y ∉ a :: q a := by
        intro hmem
        rcases List.mem_cons.mp hmem with heq | hmem
        · exact hy (heq ▸ ha)
        · exact hold a ha hmem
      rw [spliceOut_next_of_ne hyx (fun heq => hya (heq ▸ hpm)),
        spliceOut_prev_of_ne hyx (fun heq => hya (heq ▸ hnm))]
      exact hr.detached y hy hold

/-- Appending to a ring does not touch the links of another. -/
theorem Rings.append_others {b y : ν} (hr : Rings h H q) (ha : H a) (hx : ¬ H x)
    (hfree : ∀ b, H b → x ∉ q b) (hb : H b) (hba : b ≠ a) (hy : y ∈ b :: q b) :
    (spliceIn (lastOf a (q a)) x a h).next y = h.next y ∧
      (spliceIn (lastOf a (q a)) x a h).prev y = h.prev y := by
  have hya : y ∉ a :: q a := fun hmem => hba (hr.disjoint b a hb ha y hy hmem)
  have hyx : y ≠ x := by
    rintro rfl
    rcases List.mem_cons.mp hy with heq | hmem
    · exact hx (heq ▸ hb)
    · exact hfree b hb hmem
  exact ⟨spliceIn_next_of_ne hyx fun heq => hya (heq ▸ lastOf_mem a (q a)),
    spliceIn_prev_of_ne hyx fun heq => hya (heq ▸ List.mem_cons_self)⟩

/-- Taking a node out of a ring does not touch the links of another. -/
theorem Rings.erase_others {b p n y : ν} (hr : Rings h H q) (ha : H a) (hx : x ∈ q a)
    (hp : h.prev x = some p) (hn : h.next x = some n) (hb : H b) (hba : b ≠ a)
    (hy : y ∈ b :: q b) :
    (spliceOut p x n h).next y = h.next y ∧ (spliceOut p x n h).prev y = h.prev y := by
  obtain ⟨p', n', hp', hn', hpm, hnm, _⟩ := (hr.ring a ha).erase hx
  obtain rfl : p = p' := Option.some.inj (hp.symm.trans hp')
  obtain rfl : n = n' := Option.some.inj (hn.symm.trans hn')
  have hya : y ∉ a :: q a := fun hmem => hba (hr.disjoint b a hb ha y hy hmem)
  have hyx : y ≠ x := fun heq => hya (heq ▸ List.mem_cons_of_mem _ hx)
  exact ⟨spliceOut_next_of_ne hyx fun heq => hya (heq ▸ hpm),
    spliceOut_prev_of_ne hyx fun heq => hya (heq ▸ hnm)⟩

/-- The nodes outside the rings are the ones whose links are null. -/
theorem Rings.detached_iff (hr : Rings h H q) :
    (h.next x = none ∧ h.prev x = none) ↔ ¬ H x ∧ ∀ a, H a → x ∉ q a := by
  constructor
  · rintro ⟨hnext, -⟩
    refine ⟨fun hx => ?_, fun a ha hx => ?_⟩
    · rw [(hr.ring x hx).next_head] at hnext
      cases hnext
    · obtain ⟨p, n, -, hn, -⟩ := (hr.ring a ha).erase hx
      rw [hn] at hnext
      cases hnext
  · rintro ⟨hx, hfree⟩
    exact hr.detached x hx hfree

/-- A detached node becomes the head of an empty ring. -/
theorem Rings.newHead (hr : Rings h H q) (hx : ¬ H x) (hfree : ∀ b, H b → x ∉ q b) :
    Rings ((h.setNext x (some x)).setPrev x (some x)) (fun y => H y ∨ y = x)
      (Function.update q x []) := by
  have hne : ∀ b, H b → b ≠ x := fun b hb heq => hx (heq ▸ hb)
  have hq : ∀ b, H b → Function.update q x [] b = q b := fun b hb =>
    Function.update_of_ne (hne b hb) _ _
  have hread : ∀ y, y ≠ x → ((h.setNext x (some x)).setPrev x (some x)).next y = h.next y ∧
      ((h.setNext x (some x)).setPrev x (some x)).prev y = h.prev y := by
    intro y hy
    exact ⟨Function.update_of_ne hy _ _, Function.update_of_ne hy _ _⟩
  have hxmem : ∀ b, H b → x ∉ b :: q b := by
    intro b hb hmem
    rcases List.mem_cons.mp hmem with heq | hmem
    · exact hne b hb heq.symm
    · exact hfree b hb hmem
  refine ⟨?_, ?_, ?_⟩
  · intro b hb
    by_cases hbx : b = x
    · subst hbx
      rw [Function.update_self]
      exact ⟨List.nodup_singleton b, Function.update_self _ _ _, Function.update_self _ _ _⟩
    · have hb' := hb.resolve_right hbx
      rw [hq b hb']
      refine (hr.ring b hb').congr ?_ ?_
      · intro y hy
        exact (hread y (fun heq => hxmem b hb' (heq ▸ hy))).1
      · intro y hy
        exact (hread y (fun heq => hxmem b hb' (heq ▸ hy))).2
  · intro b c hb hc y hyb hyc
    by_cases hbx : b = x
    · by_cases hcx : c = x
      · rw [hbx, hcx]
      · rw [hbx, Function.update_self, List.mem_singleton] at hyb
        rw [hq c (hc.resolve_right hcx), hyb] at hyc
        exact absurd hyc (hxmem c (hc.resolve_right hcx))
    · by_cases hcx : c = x
      · rw [hcx, Function.update_self, List.mem_singleton] at hyc
        rw [hq b (hb.resolve_right hbx), hyc] at hyb
        exact absurd hyb (hxmem b (hb.resolve_right hbx))
      · rw [hq b (hb.resolve_right hbx)] at hyb
        rw [hq c (hc.resolve_right hcx)] at hyc
        exact hr.disjoint b c (hb.resolve_right hbx) (hc.resolve_right hcx) y hyb hyc
  · intro y hy hyfree
    have hyx : y ≠ x := fun heq => hy (Or.inr heq)
    rw [(hread y hyx).1, (hread y hyx).2]
    refine hr.detached y (fun hH => hy (Or.inl hH)) ?_
    intro b hb
    rw [← hq b hb]
    exact hyfree b (Or.inl hb)

end Rings

end Edits

end IntrusiveList
