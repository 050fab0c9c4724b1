import OslabRiscv.Mm.Eviction

/-!
# The shape of the page tables

Who owns which descriptor, and what for: `Owners` gives a descriptor its process and,
if it is a table or a mapped page, its path from the root, the indices of the entries
from the last one back.  The root has the empty path, a page of the process a path of
three.  A descriptor without a path is one that is not linked yet, or the kernel stack.

`Shape` is the invariant: every path is held by one descriptor, every frame by one, and
an entry of a table points to the descriptor that holds the path through it.  If there is
none the entry is empty, or one more mapping of a page that is shared after a snapshot.  Most
changes are one descriptor put behind one entry, and `Shape.update` is the one proof for
them.
-/

namespace Mm

abbrev Owners := Nat → Option (Nat × Option (List Nat))

/-- The entries of the kernel's root table, and those a process may use. -/
def User (root : Nat → Pte) (i : Nat) : Prop := (root i).has present = false

instance (root : Nat → Pte) (i : Nat) : Decidable (User root i) :=
  inferInstanceAs (Decidable (_ = _))

/-- The page is in memory. -/
def Res (s : State) (id : Nat) : Prop := (s.pages id).status ≠ .notInMem

instance (s : State) (id : Nat) : Decidable (Res s id) := inferInstanceAs (Decidable (_ ≠ _))

/-- A page of memory that `allocPage` has given. -/
def Given (s : State) (kva : Nat) : Prop :=
  freememKernel ≤ kva ∧ kva % 4096 = 0 ∧ kva < s.kernMemCurr

/-- An entry that points to the page `k`; the mark for the swap area counts in
the last level only. -/
def Filled (s : State) (e : Pte) (k : Nat) (last : Prop) : Prop :=
  (Res s k ∧ e.has present = true ∧ pageOf e = (s.pages k).kva ∧ (last → e.has inSd = false)) ∨
    (¬ Res s k ∧ e.has present = false ∧ e.has inSd = true)

/-- An entry for a page that `p` shares with itself. -/
def Shared (own : Owners) (s : State) (p : Nat) (e : Pte) : Prop :=
  e.has present = true ∧ e.has inSd = false ∧ ∃ k π, own k = some (p, some π) ∧ π.length = 3 ∧
    (s.pages k).status = .copyOnWrite ∧ pageOf e = (s.pages k).kva

/-- Entry `i` of the table with path `π`, which is in `t`. -/
def Slot (own : Owners) (s : State) (p t i : Nat) (π : List Nat) : Prop :=
  (((s.mem t i).has present = false ∧ (π.length = 2 → (s.mem t i).has inSd = false) ∨
        π.length = 2 ∧ Shared own s p (s.mem t i)) ∧
      ∀ k, own k ≠ some (p, some (i :: π))) ∨
    ∃ k, own k = some (p, some (i :: π)) ∧ Filled s (s.mem t i) k (π.length = 2)

/-- The path of the page at `va`. -/
def pathOf (va : Nat) : List Nat := [vpn0 va, vpn1 va, vpn2 va]

structure Shape (root : Nat → Pte) (own : Owners) (s : State) : Prop where
  kernel : ∀ i, s.mem (pa2kva pgdirPa) i = root i
  fresh : ∀ id, s.pageId ≤ id →
    (s.pages id).status = .unused ∧ own id = none ∧ (s.pages id).pte = none
  nodup : ∀ p, (s.procs p).pagehead.Nodup
  listed : ∀ p id, id ∈ (s.procs p).pagehead ↔ ∃ r, own id = some (p, r)
  path_inj : ∀ id id' p π, own id = some (p, some π) → own id' = some (p, some π) → id = id'
  room : freememKernel ≤ s.kernMemCurr ∧ s.kernMemCurr % 4096 = 0 ∧
    s.kernMemCurr ≤ freememKernel + 4096 * s.pageId ∧ s.pageId ≤ pageNum
  frame : ∀ id, own id ≠ none → Res s id → Given s (s.pages id).kva
  frame_inj : ∀ id id', own id ≠ none → own id' ≠ none → Res s id → Res s id' →
    (s.pages id).kva = (s.pages id').kva → id = id'
  status : ∀ id p π, own id = some (p, some π) →
    (π.length < 3 → (s.pages id).status = .unswapable ∧ (s.pages id).pte = none) ∧
    (¬ Res s id → (s.pages id).kva = 0)
  loose : ∀ id p, own id = some (p, none) →
    Res s id ∧ (s.pages id).status ≠ .copyOnWrite ∧ (s.pages id).pte = none
  dir : ∀ id p, own id = some (p, some []) → (s.procs p).pgdir = (s.pages id).kva
  parent : ∀ k p i π, own k = some (p, some (i :: π)) →
    π.length ≤ 2 ∧ (π = [] → User root i) ∧ ∃ id, own id = some (p, some π)
  slot : ∀ id p π i, own id = some (p, some π) → π.length ≤ 2 → (π = [] → User root i) →
    Slot own s p (s.pages id).kva i π
  leaf : ∀ k p π, own k = some (p, some π) → π.length = 3 → π = pathOf (s.pages k).uva ∧
    ∀ id, own id = some (p, some π.tail) → (s.pages k).pte = some ((s.pages id).kva, π.headI)

variable {root : Nat → Pte} {own : Owners} {s s' : State} {p id k t i va kva : Nat} {π : List Nat}

/-! ## Frames -/

/-- What the pool gives out are frames. -/
theorem Given.frame (hroom : s.kernMemCurr ≤ freememKernel + 4096 * s.pageId ∧ s.pageId ≤ pageNum)
    (h : Given s kva) : Frame kva := by
  obtain ⟨h1, h2, h3⟩ := h
  simp only [Frame, freememKernel, kvaOffset, pageNum] at *
  omega

namespace Shape

/-- A page that is in memory is in a frame. -/
theorem frameOf (h : Shape root own s) (ho : own id ≠ none) (hr : Res s id) :
    Frame (s.pages id).kva :=
  (h.frame id ho hr).frame ⟨h.room.2.2.1, h.room.2.2.2⟩

/-- This frame is not the kernel's root table. -/
theorem kva_ne_root (h : Shape root own s) (ho : own id ≠ none) (hr : Res s id) :
    (s.pages id).kva ≠ pa2kva pgdirPa := by
  have hlo := (h.frame id ho hr).1
  intro hcon
  rw [hcon] at hlo
  exact absurd hlo (by decide)

/-- Tables are never put away. -/
theorem table_res (h : Shape root own s) (ho : own id = some (p, some π)) (hπ : π.length ≤ 2) :
    Res s id := by
  intro hcon
  rw [((h.status id p π ho).1 (by omega)).1] at hcon
  cases hcon

/-- The entry a linked descriptor is behind. -/
theorem filled (h : Shape root own s) (hk : own k = some (p, some (i :: π)))
    (hid : own id = some (p, some π)) :
    Filled s (s.mem (s.pages id).kva i) k (π.length = 2) := by
  obtain ⟨hlen, huser, _⟩ := h.parent k p i π hk
  rcases h.slot id p π i hid hlen huser with ⟨_, hnone⟩ | ⟨k', hk', hf⟩
  · exact absurd hk (hnone k)
  · rw [h.path_inj k k' p _ hk hk']
    exact hf

/-- The entry of a table points to it. -/
theorem filled_table (h : Shape root own s) (hk : own k = some (p, some (i :: π)))
    (hid : own id = some (p, some π)) (hπ : π.length ≤ 1) :
    (s.mem (s.pages id).kva i).has present = true ∧
      pageOf (s.mem (s.pages id).kva i) = (s.pages k).kva := by
  have hres : Res s k := h.table_res hk (by simpa using hπ)
  rcases h.filled hk hid with ⟨_, hp, hpage, _⟩ | ⟨hout, _, _⟩
  · exact ⟨hp, hpage⟩
  · exact absurd hres hout

/-- The tables over a page lead to the one with its entry. -/
theorem leads (h : Shape root own s) (hid : own id = some (p, some [vpn1 va, vpn2 va])) :
    Leads (s.procs p).pgdir va (s.pages id).kva s := by
  obtain ⟨_, _, m, hm⟩ := h.parent id p _ _ hid
  obtain ⟨_, _, d, hd⟩ := h.parent m p _ _ hm
  obtain ⟨htop, hmid⟩ := h.filled_table hm hd (by simp)
  obtain ⟨hsecond, hlow⟩ := h.filled_table hid hm (by simp)
  have hdir := h.dir d p hd
  refine ⟨?_, ?_, ?_⟩
  · rw [hdir]
    exact htop
  · rw [hdir, hmid]
    exact hsecond
  · rw [hdir, hmid]
    exact hlow

/-! ## One descriptor behind one entry -/

/-- The descriptor `k₀` holds the path `π`. -/
def link (own : Owners) (k₀ p₀ : Nat) (π : List Nat) : Owners :=
  fun k => if k = k₀ then some (p₀, some π) else own k

/-- What it takes to put `k₀` behind entry `i₀` of the table `id₀`. -/
structure Links (root : Nat → Pte) (own : Owners) (s s' : State) (id₀ k₀ p₀ i₀ : Nat)
    (π₀ : List Nat) : Prop where
  table : own id₀ = some (p₀, some π₀)
  len : π₀.length ≤ 2
  user : π₀ = [] → User root i₀
  page : (own k₀ = some (p₀, some (i₀ :: π₀)) ∧ π₀.length = 2) ∨
    (own k₀ = some (p₀, none) ∧ ∀ k, own k ≠ some (p₀, some (i₀ :: π₀)))
  pages : ∀ k, k ≠ k₀ → s'.pages k = s.pages k
  mem : ∀ id p π j, own id = some (p, some π) → π.length ≤ 2 → id ≠ id₀ ∨ j ≠ i₀ →
    s'.mem (s.pages id).kva j = s.mem (s.pages id).kva j
  entry : Filled s' (s'.mem (s.pages id₀).kva i₀) k₀ (π₀.length = 2)
  status : (π₀.length ≤ 1 → (s'.pages k₀).status = .unswapable ∧ (s'.pages k₀).pte = none) ∧
    (¬ Res s' k₀ → (s'.pages k₀).kva = 0)
  alone : (s.pages k₀).status ≠ .copyOnWrite
  frame : Res s' k₀ → Given s (s'.pages k₀).kva ∧
    ∀ k, k ≠ k₀ → own k ≠ none → Res s k → (s.pages k).kva ≠ (s'.pages k₀).kva
  empty : π₀.length ≤ 1 → ∀ j, (s'.mem (s'.pages k₀).kva j).has present = false ∧
    (s'.mem (s'.pages k₀).kva j).has inSd = false
  leaf : π₀.length = 2 → i₀ :: π₀ = pathOf (s'.pages k₀).uva ∧
    (s'.pages k₀).pte = some ((s.pages id₀).kva, i₀)
  kernel : ∀ i, s'.mem (pa2kva pgdirPa) i = s.mem (pa2kva pgdirPa) i
  pageId : s'.pageId = s.pageId
  kernMemCurr : s'.kernMemCurr = s.kernMemCurr
  procs : s'.procs = s.procs

section Update

variable {id₀ k₀ p₀ i₀ : Nat} {π₀ : List Nat}

theorem link_self (own : Owners) (k₀ p₀ : Nat) (π : List Nat) :
    link own k₀ p₀ π k₀ = some (p₀, some π) := if_pos rfl

theorem link_other (own : Owners) {k₀ k : Nat} (p₀ : Nat) (π : List Nat) (h : k ≠ k₀) :
    link own k₀ p₀ π k = own k := if_neg h

theorem Links.table_ne (hl : Links root own s s' id₀ k₀ p₀ i₀ π₀) : id₀ ≠ k₀ := by
  intro hcon
  have ht := hl.table
  rw [hcon] at ht
  rcases hl.page with ⟨hp, _⟩ | ⟨hp, _⟩
  · rw [ht] at hp
    have hlen := congrArg List.length (Option.some.inj (Prod.mk.inj (Option.some.inj hp)).2)
    simp at hlen
  · rw [ht] at hp
    cases hp

/-- Paths that are held stay held. -/
theorem Links.kept (hl : Links root own s s' id₀ k₀ p₀ i₀ π₀) (ho : own id = some (p, some π)) :
    link own k₀ p₀ (i₀ :: π₀) id = some (p, some π) := by
  by_cases hid : id = k₀
  · rcases hl.page with ⟨hp, _⟩ | ⟨hp, _⟩
    · rw [hid, link_self, ← hp, ← hid, ho]
    · rw [← hid, ho] at hp
      cases hp
  · rw [link_other _ _ _ hid, ho]

/-- Nothing is linked below a table that is not linked. -/
theorem Links.no_child (h : Shape root own s) (hl : Links root own s s' id₀ k₀ p₀ i₀ π₀)
    (hπ : π₀.length ≤ 1) (k j : Nat) : own k ≠ some (p₀, some (j :: i₀ :: π₀)) := by
  intro hk
  obtain ⟨_, _, id, hid⟩ := h.parent k p₀ j _ hk
  rcases hl.page with ⟨_, hlen⟩ | ⟨_, hnone⟩
  · omega
  · exact hnone id hid

/-- A page with a place is the one that was linked, or had it before. -/
theorem link_cases (hk : link own k₀ p₀ (i₀ :: π₀) k = some (p, some π)) :
    (k = k₀ ∧ p = p₀ ∧ π = i₀ :: π₀) ∨ (k ≠ k₀ ∧ own k = some (p, some π)) := by
  by_cases h : k = k₀
  · rw [h, link_self] at hk
    cases hk
    exact Or.inl ⟨h, rfl, rfl⟩
  · rw [link_other _ _ _ h] at hk
    exact Or.inr ⟨h, hk⟩

/-- The slots of the tables, with the page that was linked. -/
theorem update_slot (h : Shape root own s) (hl : Links root own s s' id₀ k₀ p₀ i₀ π₀)
    (ho : link own k₀ p₀ (i₀ :: π₀) id = some (p, some π)) (hπ : π.length ≤ 2)
    (hu : π = [] → User root i) :
    Slot (link own k₀ p₀ (i₀ :: π₀)) s' p (s'.pages id).kva i π := by
  rcases link_cases ho with ⟨rfl, rfl, rfl⟩ | ⟨hne, ho'⟩
  · -- the new table is empty
    have hπ₀ : π₀.length ≤ 1 := by simpa using hπ
    obtain ⟨hp, hi⟩ := hl.empty hπ₀ i
    refine Or.inl ⟨Or.inl ⟨hp, fun _ => hi⟩, fun k hk => ?_⟩
    rcases link_cases hk with ⟨_, _, hcon⟩ | ⟨_, hk'⟩
    · exact absurd (congrArg List.length hcon) (by simp)
    · exact hl.no_child h hπ₀ k i hk'
  · rw [hl.pages id hne]
    by_cases hslot : id = id₀ ∧ i = i₀
    · obtain ⟨rfl, rfl⟩ := hslot
      rw [hl.table] at ho'
      cases ho'
      exact Or.inr ⟨k₀, link_self _ _ _ _, hl.entry⟩
    · have hdiff : id ≠ id₀ ∨ i ≠ i₀ := by
        by_cases hid : id = id₀
        · exact Or.inr fun hi => hslot ⟨hid, hi⟩
        · exact Or.inl hid
      have hmem := hl.mem id p π i ho' hπ hdiff
      have hother : ∀ k, link own k₀ p₀ (i₀ :: π₀) k = some (p, some (i :: π)) →
          k ≠ k₀ ∧ own k = some (p, some (i :: π)) := by
        intro k hk
        rcases link_cases hk with ⟨_, hp, hcons⟩ | hk'
        · injection hcons with hi hπ'
          rw [hp, hπ'] at ho'
          exact absurd ⟨h.path_inj id id₀ _ _ ho' hl.table, hi⟩ hslot
        · exact hk'
      rcases h.slot id p π i ho' hπ hu with ⟨hor, hnone⟩ | ⟨k, hk, hf⟩
      · refine Or.inl ⟨?_, fun k hk => hnone k (hother k hk).2⟩
        rw [hmem]
        rcases hor with habs | ⟨hlen, hp, hi, k, π', hk, hπ', hst, hpage⟩
        · exact Or.inl habs
        · -- the page that is shared is another one
          have hk₀ : k ≠ k₀ := by
            intro hcon
            rw [hcon] at hst
            exact hl.alone hst
          refine Or.inr ⟨hlen, hp, hi, k, π', hl.kept hk, hπ', ?_⟩
          rw [hl.pages k hk₀]
          exact ⟨hst, hpage⟩
      · refine Or.inr ⟨k, hl.kept hk, ?_⟩
        have hk' := (hother k (hl.kept hk)).1
        unfold Filled Res at hf ⊢
        rw [hmem, hl.pages k hk']
        exact hf

/-- The pages of the last level, with the one that was linked. -/
theorem update_leaf (h : Shape root own s) (hl : Links root own s s' id₀ k₀ p₀ i₀ π₀)
    (ho : link own k₀ p₀ (i₀ :: π₀) k = some (p, some π)) (hπ : π.length = 3) :
    π = pathOf (s'.pages k).uva ∧
      ∀ id, link own k₀ p₀ (i₀ :: π₀) id = some (p, some π.tail) →
        (s'.pages k).pte = some ((s'.pages id).kva, π.headI) := by
  rcases link_cases ho with ⟨rfl, rfl, rfl⟩ | ⟨hne, ho'⟩
  · have hπ₀ : π₀.length = 2 := by simpa using hπ
    obtain ⟨hpath, hpte⟩ := hl.leaf hπ₀
    refine ⟨hpath, fun id hid => ?_⟩
    rcases link_cases hid with ⟨_, _, hcon⟩ | ⟨hid', hid⟩
    · exact absurd (congrArg List.length hcon) (by simp)
    · rw [h.path_inj id id₀ _ _ hid hl.table, hl.pages id₀ hl.table_ne]
      exact hpte
  · rw [hl.pages k hne]
    obtain ⟨hpath, hpte⟩ := h.leaf k p π ho' hπ
    refine ⟨hpath, fun id hid => ?_⟩
    rcases link_cases hid with ⟨_, rfl, htail⟩ | ⟨hid', hid⟩
    · cases π with
      | nil => simp at hπ
      | cons j π =>
          have hlen : π₀.length ≤ 1 := by
            have hlen := congrArg List.length htail
            simp at hlen hπ
            omega
          rw [show π = i₀ :: π₀ from htail] at ho'
          exact absurd ho' (hl.no_child h hlen k j)
    · rw [hl.pages id hid']
      exact hpte id hid

/-- **Putting a descriptor behind an entry keeps the shape.** -/
theorem update (h : Shape root own s) (hl : Links root own s s' id₀ k₀ p₀ i₀ π₀) :
    Shape root (link own k₀ p₀ (i₀ :: π₀)) s' := by
  have hown : ∃ r, own k₀ = some (p₀, r) := by
    rcases hl.page with ⟨hp, _⟩ | ⟨hp, _⟩
    · exact ⟨_, hp⟩
    · exact ⟨_, hp⟩
  have hsome : ∀ k, k ≠ k₀ → link own k₀ p₀ (i₀ :: π₀) k ≠ none → own k ≠ none := by
    intro k hk ho
    rwa [link_other _ _ _ hk] at ho
  have hres : ∀ k, k ≠ k₀ → (Res s' k ↔ Res s k) := by
    intro k hk
    unfold Res
    rw [hl.pages k hk]
  constructor
  case kernel =>
    intro i
    rw [hl.kernel, h.kernel]
  case fresh =>
    intro id hid
    rw [hl.pageId] at hid
    obtain ⟨hst, hnone, hpte⟩ := h.fresh id hid
    have hne : id ≠ k₀ := by
      intro hcon
      obtain ⟨r, hr⟩ := hown
      rw [← hcon, hnone] at hr
      cases hr
    rw [hl.pages id hne, link_other _ _ _ hne]
    exact ⟨hst, hnone, hpte⟩
  case nodup =>
    intro p
    rw [hl.procs]
    exact h.nodup p
  case listed =>
    intro p id
    rw [hl.procs, h.listed p id]
    by_cases hid : id = k₀
    · rw [hid, link_self]
      obtain ⟨r, hr⟩ := hown
      rw [hr]
      constructor
      · intro hex
        obtain ⟨_, hr'⟩ := hex
        cases hr'
        exact ⟨_, rfl⟩
      · intro hex
        obtain ⟨_, hr'⟩ := hex
        cases hr'
        exact ⟨_, rfl⟩
    · rw [link_other _ _ _ hid]
  case path_inj =>
    intro id id' p π ho ho'
    rcases link_cases ho with ⟨rfl, rfl, rfl⟩ | ⟨hne, ho₁⟩
    · rcases link_cases ho' with ⟨rfl, _, _⟩ | ⟨hne', ho₂⟩
      · rfl
      · rcases hl.page with ⟨hp, _⟩ | ⟨_, hnone⟩
        · exact h.path_inj _ _ _ _ hp ho₂
        · exact absurd ho₂ (hnone id')
    · rcases link_cases ho' with ⟨rfl, rfl, rfl⟩ | ⟨hne', ho₂⟩
      · rcases hl.page with ⟨hp, _⟩ | ⟨_, hnone⟩
        · exact h.path_inj _ _ _ _ ho₁ hp
        · exact absurd ho₁ (hnone id)
      · exact h.path_inj _ _ _ _ ho₁ ho₂
  case room =>
    rw [hl.kernMemCurr, hl.pageId]
    exact h.room
  case frame =>
    intro id ho hr
    unfold Given
    rw [hl.kernMemCurr]
    by_cases hid : id = k₀
    · rw [hid] at hr ⊢
      exact (hl.frame hr).1
    · rw [hl.pages id hid]
      exact h.frame id (hsome id hid ho) ((hres id hid).mp hr)
  case frame_inj =>
    intro id id' ho ho' hr hr' heq
    by_cases hid : id = k₀
    · by_cases hid' : id' = k₀
      · rw [hid, hid']
      · rw [hid] at hr heq
        rw [hl.pages id' hid'] at heq
        exact absurd heq.symm
          ((hl.frame hr).2 id' hid' (hsome id' hid' ho') ((hres id' hid').mp hr'))
    · by_cases hid' : id' = k₀
      · rw [hid'] at hr' heq
        rw [hl.pages id hid] at heq
        exact absurd heq ((hl.frame hr').2 id hid (hsome id hid ho) ((hres id hid).mp hr))
      · rw [hl.pages id hid, hl.pages id' hid'] at heq
        exact h.frame_inj id id' (hsome id hid ho) (hsome id' hid' ho') ((hres id hid).mp hr)
          ((hres id' hid').mp hr') heq
  case status =>
    intro id p π ho
    rcases link_cases ho with ⟨rfl, rfl, rfl⟩ | ⟨hne, ho⟩
    · refine ⟨fun hlen => hl.status.1 ?_, hl.status.2⟩
      simp at hlen
      omega
    · have hst := h.status id p π ho
      unfold Res at hst ⊢
      rw [hl.pages id hne]
      exact hst
  case loose =>
    intro id p ho
    have hne : id ≠ k₀ := by
      intro hcon
      rw [hcon, link_self] at ho
      cases ho
    rw [link_other _ _ _ hne] at ho
    have hst := h.loose id p ho
    unfold Res at hst ⊢
    rw [hl.pages id hne]
    exact hst
  case dir =>
    intro id p ho
    rcases link_cases ho with ⟨_, _, hcon⟩ | ⟨hne, ho⟩
    · cases hcon
    · rw [hl.procs, hl.pages id hne]
      exact h.dir id p ho
  case parent =>
    intro k p i π ho
    rcases link_cases ho with ⟨rfl, rfl, hcons⟩ | ⟨hne, ho⟩
    · injection hcons with hi hπ
      rw [hi, hπ]
      exact ⟨hl.len, hl.user, id₀, hl.kept hl.table⟩
    · obtain ⟨hlen, hu, id, hid⟩ := h.parent k p i π ho
      exact ⟨hlen, hu, id, hl.kept hid⟩
  case slot =>
    intro id p π i ho hπ hu
    exact update_slot h hl ho hπ hu
  case leaf =>
    intro k p π ho hπ
    exact update_leaf h hl ho hπ

end Update

end Shape

end Mm
