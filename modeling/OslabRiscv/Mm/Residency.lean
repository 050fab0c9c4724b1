import OslabRiscv.Mm.Sharing

/-!
# Frames and residency

The calls keep the invariant `Sane`: a walk that makes what is missing, the return
of a page from the swap area, the fault handlers, and the start of a process.  From it
follow the accounts of frames, `pagenum` and sectors in every state of every run.
-/

namespace Mm

open Outcome

variable {root : Nat → Pte} {own own' : Owners} {s s' : State} {p id k x t i va kva : Nat}
  {π : List Nat} {st : PageStatus}

/-! ## Linking -/

/-- The entry of a table is present. -/
theorem table_bits (a : BitVec 10) : (a ||| (present ||| user)) &&& present ≠ 0 := by
  revert a
  decide +kernel

/-- The entry of a page is present and not on the disk. -/
theorem leaf_bits (a : BitVec 10) (h : a &&& inSd = 0) :
    (a ||| leafAttr) &&& present ≠ 0 ∧ (a ||| leafAttr) &&& inSd = 0 := by
  revert a
  decide +kernel

/-- The invariant under a link of a page that is in memory. -/
theorem Near.link {id₀ k₀ p₀ i₀ : Nat} {π₀ : List Nat} (hn : Near root own s)
    (hl : Shape.Links root own s s' id₀ k₀ p₀ i₀ π₀) (hres : Res s k₀) (hres' : Res s' k₀)
    (hw : s'.writes = s.writes) (hsec : s'.sector = s.sector) :
    Near root (Shape.link own k₀ p₀ (i₀ :: π₀)) s' := by
  have hall : ∀ x, Res s' x ↔ Res s x := by
    intro x
    by_cases hx : x = k₀
    · rw [hx]
      exact ⟨fun _ => hres, fun _ => hres'⟩
    · unfold Res
      rw [hl.pages x hx]
  refine ⟨hn.shape.update hl, fun p => ?_, hn.stored.update hn.shape hl hres' hw,
    hn.drawn.same hw hsec⟩
  exact (hn.tally p).congr (by rw [hl.procs]) (by rw [hl.procs]) (by rw [hl.procs]) fun x _ => hall x

/-- The frames of a table and of another descriptor are two. -/
theorem Shape.kva_ne (h : Shape root own s) (hid : own id = some (p, some π)) (hπ : π.length ≤ 2)
    (hx : own x ≠ none) (hr : Res s x) (hne : id ≠ x) : (s.pages id).kva ≠ (s.pages x).kva :=
  fun hcon => hne (h.frame_inj id x (by rw [hid]; simp) hx (h.table_res hid hπ) hr hcon)

/-- A new table is cleared and put behind its entry. -/
def linkTable (t i next : Nat) (s : State) : State :=
  modifyWord t i (setAttribute (present ||| user))
    (modifyWord t i (setPfn (kva2pa next / 4096)) (clearPgdir next s))

/-- The links of the tables with a new table. -/
theorem linkTable_links (h : Shape root own s) (hid : own id = some (p, some π))
    (hπ : π.length ≤ 1) (hu : π = [] → User root i) (hx : own x = some (p, none))
    (hst : (s.pages x).status = .unswapable) (hno : ∀ k, own k ≠ some (p, some (i :: π))) :
    Shape.Links root own s (linkTable (s.pages id).kva i (s.pages x).kva s) id x p i π := by
  have hxs : own x ≠ none := by
    rw [hx]
    simp
  have hres : Res s x := (h.loose x p hx).1
  have hid_ne : ∀ y q π', own y = some (q, some π') → y ≠ x := by
    intro y q π' hy hcon
    rw [hcon, hx] at hy
    cases hy
  have hne : (s.pages id).kva ≠ (s.pages x).kva :=
    h.kva_ne hid (by omega) hxs hres (hid_ne id p π hid)
  constructor
  case table => exact hid
  case len => omega
  case user => exact hu
  case page => exact Or.inr ⟨hx, hno⟩
  case pages => exact fun _ _ => rfl
  case mem =>
    intro y q π' j hy hπ' hor
    have hy_ne : (s.pages y).kva ≠ (s.pages x).kva :=
      h.kva_ne hy hπ' hxs hres (hid_ne y q π' hy)
    have hpair : ¬ ((s.pages y).kva = (s.pages id).kva ∧ j = i) := by
      intro hcon
      rcases hor with hor | hor
      · exact h.kva_ne hy hπ' (by rw [hid]; simp) (h.table_res hid (by omega)) hor hcon.1
      · exact hor hcon.2
    simp [linkTable, modifyWord, setWord, clearPgdir, setContent, hpair, hy_ne]
  case entry =>
    refine Or.inl ⟨hres, ?_, ?_, fun hlen => ?_⟩
    · refine has_eq_true.mpr ?_
      simp only [linkTable, modifyWord, setWord, clearPgdir, setContent, and_self, if_true]
      exact table_bits _
    · refine (h.frameOf hxs hres).pageOf_eq ?_
      simp only [linkTable, modifyWord, setWord, clearPgdir, setContent, and_self, if_true]
      rfl
    · omega
  case status =>
    have hl := h.loose x p hx
    exact ⟨fun _ => ⟨hst, hl.2.2⟩, fun hcon => absurd hres hcon⟩
  case alone => exact (h.loose x p hx).2.1
  case frame =>
    intro _
    refine ⟨h.frame x hxs hres, fun y hy hyo hyr hcon => hy ?_⟩
    exact h.frame_inj y x hyo hxs hyr hres hcon
  case empty =>
    intro _ j
    have hzero : (linkTable (s.pages id).kva i (s.pages x).kva s).mem (s.pages x).kva j = ⟨0, 0⟩ := by
      simp [linkTable, modifyWord, setWord, clearPgdir, setContent, hne.symm]
    change ((linkTable _ _ _ s).mem (s.pages x).kva j).has present = false ∧
      ((linkTable _ _ _ s).mem (s.pages x).kva j).has inSd = false
    rw [hzero]
    decide
  case leaf =>
    intro hlen
    omega
  case kernel =>
    intro j
    have h1 := h.kva_ne_root hxs hres
    have h2 := h.kva_ne_root (by rw [hid]; simp) (h.table_res hid (by omega))
    simp [linkTable, modifyWord, setWord, clearPgdir, setContent, h1.symm, h2.symm]
  case pageId => rfl
  case kernMemCurr => rfl
  case procs => rfl

/-- A new table carries the pages. -/
theorem linkTable_carries (h : Shape root own s) (hid : own id = some (p, some π))
    (hπ : π.length ≤ 1) (hx : own x = some (p, none))
    (hl : Shape.Links root own s (linkTable (s.pages id).kva i (s.pages x).kva s) id x p i π) :
    Carries nobody own s (linkTable (s.pages id).kva i (s.pages x).kva s) := by
  refine ⟨le_rfl, fun _ k q π' e c a hk hπ' _ hkept => ?_⟩
  have hkx : k ≠ x := by
    intro hcon
    rw [hcon, hx] at hk
    cases hk
  refine hl.carried h hk hπ' hkx (fun hr j => ?_) (fun _ _ _ _ _ _ => rfl) hkept
  have h1 : (s.pages k).kva ≠ (s.pages x).kva :=
    h.frames_ne (by rw [hk]; simp) (by rw [hx]; simp) hr (h.loose x p hx).1 hkx
  have h2 : (s.pages k).kva ≠ (s.pages id).kva := by
    refine h.frames_ne (by rw [hk]; simp) (by rw [hid]; simp) hr (h.table_res hid (by omega)) ?_
    intro hcon
    rw [hcon, hid] at hk
    cases hk
    omega
  simp [linkTable, modifyWord, setWord, clearPgdir, setContent, h1, h2]

@[simp] theorem setPage_self (id : Nat) (q : PageInfo) (s : State) :
    (setPage id q s).pages id = q := by
  simp [setPage]

/-- A page is put behind its entry. -/
def linkLeaf (t i va x : Nat) (s : State) : State :=
  modifyWord t i (setAttribute leafAttr) (modifyWord t i (setPfn (kva2pa (s.pages x).kva / 4096))
    (setPage x { s.pages x with uva := va, pte := some (t, i) } s))

/-- The links of the tables with a new page. -/
theorem linkLeaf_links (h : Shape root own s) (hid : own id = some (p, some [vpn1 va, vpn2 va]))
    (hx : own x = some (p, none)) (hno : ∀ k, own k ≠ some (p, some (pathOf va))) :
    Shape.Links root own s (linkLeaf (s.pages id).kva (vpn0 va) va x s) id x p (vpn0 va)
      [vpn1 va, vpn2 va] := by
  have hxs : own x ≠ none := by
    rw [hx]
    simp
  have hres : Res s x := (h.loose x p hx).1
  have hid_ne : ∀ y q π', own y = some (q, some π') → y ≠ x := by
    intro y q π' hy hcon
    rw [hcon, hx] at hy
    cases hy
  have hslot : (s.mem (s.pages id).kva (vpn0 va)).has inSd = false := by
    rcases h.slot id p _ (vpn0 va) hid (by simp) (by simp) with ⟨hor, _⟩ | ⟨k, hk, _⟩
    · rcases hor with ⟨_, hi⟩ | ⟨_, _, hi, _⟩
      · exact hi rfl
      · exact hi
    · exact absurd hk (hno k)
  have hbits := leaf_bits _ (has_eq_false.mp hslot)
  have hpage : (linkLeaf (s.pages id).kva (vpn0 va) va x s).pages x =
      { s.pages x with uva := va, pte := some ((s.pages id).kva, vpn0 va) } := by
    simp [linkLeaf, modifyWord, setWord, setPage]
  have hres' : Res (linkLeaf (s.pages id).kva (vpn0 va) va x s) x := by
    unfold Res
    rw [hpage]
    exact hres
  have hentry : (linkLeaf (s.pages id).kva (vpn0 va) va x s).mem (s.pages id).kva (vpn0 va) =
      ⟨kva2pa (s.pages x).kva / 4096 % 2 ^ 54,
        (s.mem (s.pages id).kva (vpn0 va)).attr ||| leafAttr⟩ := by
    simp [linkLeaf, modifyWord, setWord, setPage, setAttribute, setPfn]
  constructor
  case table => exact hid
  case len => simp
  case user => simp
  case page => exact Or.inr ⟨hx, hno⟩
  case pages =>
    intro y hy
    simp [linkLeaf, modifyWord, setWord, setPage, hy]
  case mem =>
    intro y q π' j hy hπ' hor
    have hpair : ¬ ((s.pages y).kva = (s.pages id).kva ∧ j = vpn0 va) := by
      intro hcon
      rcases hor with hor | hor
      · exact h.kva_ne hy hπ' (by rw [hid]; simp) (h.table_res hid (by simp)) hor hcon.1
      · exact hor hcon.2
    simp [linkLeaf, modifyWord, setWord, setPage, hpair]
  case entry =>
    refine Or.inl ⟨hres', ?_, ?_, fun _ => ?_⟩
    · rw [hentry]
      exact has_eq_true.mpr hbits.1
    · rw [hentry, hpage]
      exact (h.frameOf hxs hres).pageOf_eq rfl
    · rw [hentry]
      exact has_eq_false.mpr hbits.2
  case status =>
    refine ⟨fun hlen => ?_, fun hcon => absurd hres' hcon⟩
    simp at hlen
  case alone => exact (h.loose x p hx).2.1
  case frame =>
    intro _
    rw [hpage]
    refine ⟨h.frame x hxs hres, fun y hy hyo hyr hcon => hy ?_⟩
    exact h.frame_inj y x hyo hxs hyr hres hcon
  case empty =>
    intro hlen
    simp at hlen
  case leaf =>
    intro _
    rw [hpage]
    exact ⟨rfl, rfl⟩
  case kernel =>
    intro j
    have h2 := h.kva_ne_root (by rw [hid]; simp) (h.table_res hid (by simp))
    simp [linkLeaf, modifyWord, setWord, setPage, h2.symm]
  case pageId => rfl
  case kernMemCurr => rfl
  case procs => rfl

/-- A new page carries the pages. -/
theorem linkLeaf_carries (h : Shape root own s) (hid : own id = some (p, some [vpn1 va, vpn2 va]))
    (hx : own x = some (p, none))
    (hl : Shape.Links root own s (linkLeaf (s.pages id).kva (vpn0 va) va x s) id x p (vpn0 va)
      [vpn1 va, vpn2 va]) :
    Carries nobody own s (linkLeaf (s.pages id).kva (vpn0 va) va x s) := by
  refine ⟨le_rfl, fun _ k q π' e c a hk hπ' _ hkept => ?_⟩
  have hkx : k ≠ x := by
    intro hcon
    rw [hcon, hx] at hk
    cases hk
  refine hl.carried h hk hπ' hkx (fun hr j => ?_) (fun _ _ _ _ _ _ => rfl) hkept
  have h2 : (s.pages k).kva ≠ (s.pages id).kva := by
    refine h.frames_ne (by rw [hk]; simp) (by rw [hid]; simp) hr (h.table_res hid (by simp)) ?_
    intro hcon
    rw [hcon, hid] at hk
    cases hk
    cases hπ'
  simp [linkLeaf, modifyWord, setWord, setPage, h2]

/-! ## Walks that make what is missing -/

/-- The invariant between the calls. -/
structure Sane (root : Nat → Pte) (own : Owners) (s : State) : Prop extends Near root own s where
  settled : Settled own s

/-- What changes when descriptors are added: those in use keep their owners, and their
content unless they can be evicted; new ones have the status `st`, or are tables. -/
structure Grows (st : PageStatus) (own own' : Owners) (s s' : State) : Prop where
  kept : ∀ x r, own x = some r → own' x = some r
  pages : ∀ x, own x ≠ none → (s.pages x).status ≠ .swapable → s'.pages x = s.pages x
  added : ∀ x, own x = none → own' x ≠ none →
    (s'.pages x).status = .unswapable ∨ (s'.pages x).status = st
  alone : ∀ x, (s'.pages x).status = .copyOnWrite → (s.pages x).status = .copyOnWrite
  procs : ∀ q, (s'.procs q).pgdir = (s.procs q).pgdir ∧ (s'.procs q).live = (s.procs q).live

theorem Grows.refl (st : PageStatus) (own : Owners) (s : State) : Grows st own own s s :=
  ⟨fun _ _ h => h, fun _ _ _ => rfl, fun _ h h' => absurd h h', fun _ h => h, fun _ => ⟨rfl, rfl⟩⟩

theorem Grows.trans {own'' : Owners} {s'' : State} (h : Grows st own own' s s')
    (h' : Grows st own' own'' s' s'') (hst : st = .unswapable ∨ own' = own ∨ ∀ x, own x = none →
      own' x ≠ none → (s'.pages x).status = .unswapable) : Grows st own own'' s s'' := by
  refine ⟨fun x r hx => h'.kept x r (h.kept x r hx), fun x hx hns => ?_, fun x hx hx'' => ?_,
    fun x hx => h.alone x (h'.alone x hx), fun q => ⟨(h'.procs q).1.trans (h.procs q).1, (h'.procs q).2.trans (h.procs q).2⟩⟩
  · obtain ⟨r, hr⟩ := Option.ne_none_iff_exists'.mp hx
    have hp := h.pages x hx hns
    rw [h'.pages x (by rw [h.kept x r hr]; simp) (by rw [hp]; exact hns), hp]
  · by_cases hx' : own' x = none
    · exact h'.added x hx' hx''
    · have hst' : (s'.pages x).status = .unswapable := by
        rcases hst with rfl | rfl | hall
        · rcases h.added x hx hx' with h1 | h1
          · exact h1
          · exact h1
        · exact absurd hx hx'
        · exact hall x hx hx'
      left
      rw [h'.pages x hx' (by rw [hst']; decide)]
      exact hst'

/-- `alloc_page_helper` and `build_page_helper` find the next table, or make it. -/
structure Table (root : Nat → Pte) (own : Owners) (p i : Nat) (π : List Nat) (s : State)
    (own' : Owners) (x : Nat) (r : Nat × State) : Prop where
  sane : Sane root own' r.2
  table : own' x = some (p, some (i :: π))
  kva : r.1 = (r.2.pages x).kva
  grows : Grows .unswapable own own' s r.2
  new : (own' = own ∧ r.2 = s) ∨
    ((∀ k, own k ≠ some (p, some (i :: π))) ∧ (∀ k j, own' k ≠ some (p, some (j :: i :: π))) ∧
      ∀ j, (r.2.mem r.1 j).has present = false ∧ (r.2.mem r.1 j).has inSd = false)
  carries : Carries nobody own s r.2

theorem Carries.refl (gone : Nat → Prop) (own : Owners) (s : State) : Carries gone own s s :=
  ⟨le_rfl, fun _ _ _ _ _ _ _ _ _ _ h => h⟩

/-- The new table behind an entry that is absent. -/
structure Extended (root : Nat → Pte) (own : Owners) (p id i x : Nat) (π : List Nat) (s s₁ : State) :
    Prop where
  fresh : x = s.pageId
  table : hold own s.pageId p id = some (p, some π)
  page : hold own s.pageId p x = some (p, none)
  status : (s₁.pages x).status = .unswapable
  same : s₁.pages id = s.pages id
  none : ∀ k, own k ≠ some (p, some (i :: π))
  links : Shape.Links root (hold own s.pageId p) s₁
    (linkTable (s.pages id).kva i (s₁.pages x).kva s₁) id x p i π

/-- A page taken for a table, behind an entry that was absent. -/
theorem Alloc.extended (hs : Sane root own s) (hid : own id = some (p, some π))
    (hπ : π.length ≤ 1) (hu : π = [] → User root i)
    (habs : (s.mem (s.pages id).kva i).has present = false) {s₁ : State}
    (hr : Alloc root own p .unswapable s (x, s₁)) : Extended root own p id i x π s s₁ := by
  have h := hs.shape
  have hnone : ∀ k, own k ≠ some (p, some (i :: π)) := by
    intro k hk
    rw [(h.filled_table hk hid hπ).1] at habs
    cases habs
  have hxid : x = s.pageId := hr.id
  have hst₁ : (s₁.pages x).status = .unswapable := by
    rw [hxid]
    exact hr.status
  have hid₁ : hold own s.pageId p id = some (p, some π) := by
    rw [hold_other _ _ (Takes.hold_some h id hid), hid]
  have hpid : s₁.pages id = s.pages id := by
    refine hr.pages id (by rw [hid]; simp) ?_
    rw [((h.status id p π hid).1 (by omega)).1]
    decide
  have hx₁ : hold own s.pageId p x = some (p, none) := by
    rw [hxid]
    exact hold_self own s.pageId p
  have hno : ∀ k, hold own s.pageId p k ≠ some (p, some (i :: π)) :=
    fun k hk => hnone k (Takes.hold_path hk).2
  have hl := linkTable_links hr.near.shape hid₁ hπ hu hx₁ hst₁ hno
  rw [hpid] at hl
  exact ⟨hxid, hid₁, hx₁, hst₁, hpid, hnone, hl⟩

/-- One step down the tables finds the next one or makes it. -/
theorem tableAt_table (hs : Sane root own s) (hid : own id = some (p, some π))
    (hπ : π.length ≤ 1) (hu : π = [] → User root i) :
    Holds AnyStop (fun r => ∃ own' x, Table root own p i π s own' x r)
      (tableAt p (s.pages id).kva i s) := by
  have h := hs.shape
  unfold tableAt
  rcases h.slot id p π i hid (by omega) hu with ⟨hor, hnone⟩ | ⟨k, hk, hf⟩
  · have habs : (s.mem (s.pages id).kva i).has present = false := by
      rcases hor with ⟨habs, _⟩ | ⟨hlen, _⟩
      · exact habs
      · omega
    rw [if_neg (by rw [habs]; simp)]
    refine Holds.bind (allocPagetable_alloc hs.toNear hs.settled (Or.inr rfl)) fun r hr => ?_
    obtain ⟨x, s₁⟩ := r
    obtain ⟨hxid, hid₁, hx₁, hst₁, hpid, _, hl⟩ := hr.extended hs hid hπ hu habs
    have hca := hr.carries.trans
      (linkTable_carries hr.near.shape hid₁ hπ hx₁ (by rw [hpid]; exact hl))
      fun y q π' hy _ => by rw [hold_other _ _ (Takes.hold_some h y hy), hy]
    rw [hpid] at hca
    have hnear := hr.near.link hl (hr.near.shape.loose x p hx₁).1 (hr.near.shape.loose x p hx₁).1
      rfl rfl
    have hown' : ∀ y r, own y = some r →
        Shape.link (hold own s.pageId p) x p (i :: π) y = some r := by
      intro y r hy
      have hne := Takes.hold_some h y hy
      rw [Shape.link_other _ _ _ (by rw [hxid]; exact hne), hold_other _ _ hne, hy]
    refine ⟨_, x, ⟨⟨hnear, fun y q hy => ?_⟩, Shape.link_self _ _ _ _, rfl,
      ⟨hown', ?_, ?_, hr.alone, hr.procs⟩,
      Or.inr ⟨hnone, fun k j hk => ?_, fun j => hl.empty hπ j⟩, hca⟩⟩
    · have hne : y ≠ x := by
        intro hcon
        rw [hcon, Shape.link_self] at hy
        cases hy
      rw [Shape.link_other _ _ _ hne] at hy
      exact hr.settled y q hy (by rw [← hxid]; exact hne)
    · exact hr.pages
    · intro y hy hy'
      left
      by_cases hne : y = x
      · rw [hne]
        exact hst₁
      · rw [Shape.link_other _ _ _ hne, hold_other _ _ (by rw [← hxid]; exact hne)] at hy'
        exact absurd hy hy'
    · rcases Shape.link_cases hk with ⟨_, _, hcon⟩ | ⟨_, hk'⟩
      · exact absurd (congrArg List.length hcon) (by simp)
      · obtain ⟨_, _, y, hy⟩ := hr.near.shape.parent k p j _ hk'
        exact hnone y (Takes.hold_path hy).2
  · have hres : Res s k := h.table_res hk (by simpa using hπ)
    rcases hf with ⟨_, hp, hpage, _⟩ | ⟨hout, _, _⟩
    · rw [if_pos hp]
      exact ⟨own, k, hs, hk, hpage, .refl _ _ _, Or.inl ⟨rfl, rfl⟩, .refl _ _ _⟩
    · exact absurd hres hout

/-- What `alloc_page_helper` gives. -/
structure Mapped (root : Nat → Pte) (own : Owners) (va p : Nat) (st : PageStatus) (s : State)
    (own' : Owners) (x : Nat) (r : Nat × State) : Prop where
  sane : Sane root own' r.2
  page : own' x = some (p, some (pathOf va))
  res : Res r.2 x
  kva : r.1 = (r.2.pages x).kva
  grows : Grows st own own' s r.2
  carries : Carries nobody own s r.2

/-- A new page behind an entry of the last level. -/
theorem Alloc.leafLinks (hs : Sane root own s) (hid : own id = some (p, some [vpn1 va, vpn2 va]))
    (hnone : ∀ k, own k ≠ some (p, some (pathOf va))) {s₁ : State}
    (hr : Alloc root own p st s (x, s₁)) :
    hold own s.pageId p id = some (p, some [vpn1 va, vpn2 va]) ∧
      hold own s.pageId p x = some (p, none) ∧ s₁.pages id = s.pages id ∧
      Shape.Links root (hold own s.pageId p) s₁ (linkLeaf (s.pages id).kva (vpn0 va) va x s₁) id x p
        (vpn0 va) [vpn1 va, vpn2 va] := by
  have h := hs.shape
  have hxid : x = s.pageId := hr.id
  have hid₁ : hold own s.pageId p id = some (p, some [vpn1 va, vpn2 va]) := by
    rw [hold_other _ _ (Takes.hold_some h id hid), hid]
  have hpid : s₁.pages id = s.pages id := by
    refine hr.pages id (by rw [hid]; simp) ?_
    rw [((h.status id p _ hid).1 (by simp)).1]
    decide
  have hx₁ : hold own s.pageId p x = some (p, none) := by
    rw [hxid]
    exact hold_self own s.pageId p
  have hl := linkLeaf_links hr.near.shape hid₁ hx₁ fun k hk => hnone k (Takes.hold_path hk).2
  rw [hpid] at hl
  exact ⟨hid₁, hx₁, hpid, hl⟩

/-- The last step of the walk. -/
theorem allocLeaf_mapped (hs : Sane root own s) (hid : own id = some (p, some [vpn1 va, vpn2 va]))
    (hst : st = .swapable ∨ st = .unswapable)
    (hin : ∀ k, own k = some (p, some (pathOf va)) → Res s k)
    (hnot : ¬ Shared own s p (s.mem (s.pages id).kva (vpn0 va))) :
    Holds AnyStop (fun r => ∃ own' x, Mapped root own va p st s own' x r)
      (if (s.mem (s.pages id).kva (vpn0 va)).has present then
        .ok (pageOf (s.mem (s.pages id).kva (vpn0 va)), s)
      else allocPagetable p st s >>= fun r =>
        .ok ((r.2.pages r.1).kva, linkLeaf (s.pages id).kva (vpn0 va) va r.1 r.2)) := by
  have h := hs.shape
  rcases h.slot id p _ (vpn0 va) hid (by simp) (by simp) with ⟨hor, hnone⟩ | ⟨k, hk, hf⟩
  · have habs : (s.mem (s.pages id).kva (vpn0 va)).has present = false := by
      rcases hor with ⟨habs, _⟩ | ⟨_, hshared⟩
      · exact habs
      · exact absurd hshared hnot
    rw [if_neg (by rw [habs]; simp)]
    refine Holds.bind (allocPagetable_alloc hs.toNear hs.settled hst) fun r hr => ?_
    obtain ⟨x, s₁⟩ := r
    have hxid : x = s.pageId := hr.id
    obtain ⟨hid₁, hx₁, hpid, hl⟩ := hr.leafLinks hs hid hnone
    have hca := hr.carries.trans (linkLeaf_carries hr.near.shape hid₁ hx₁ (by rw [hpid]; exact hl))
      fun y q π' hy _ => by rw [hold_other _ _ (Takes.hold_some h y hy), hy]
    rw [hpid] at hca
    have hloose := hr.near.shape.loose x p hx₁
    have hpage : (linkLeaf (s.pages id).kva (vpn0 va) va x s₁).pages x =
        { s₁.pages x with uva := va, pte := some ((s.pages id).kva, vpn0 va) } := by
      simp [linkLeaf, modifyWord, setWord, setPage]
    have hres' : Res (linkLeaf (s.pages id).kva (vpn0 va) va x s₁) x := by
      unfold Res
      rw [hpage]
      exact hloose.1
    have hnear := hr.near.link hl hloose.1 hres' rfl rfl
    have hown' : ∀ y r, own y = some r →
        Shape.link (hold own s.pageId p) x p (pathOf va) y = some r := by
      intro y r hy
      have hne := Takes.hold_some h y hy
      rw [Shape.link_other _ _ _ (by rw [hxid]; exact hne), hold_other _ _ hne, hy]
    refine ⟨_, x, ⟨⟨hnear, fun y q hy => ?_⟩, Shape.link_self _ _ _ _, hres', ?_,
      ⟨hown', fun y hy hns => ?_, fun y hy hy' => ?_, fun y hy => hr.alone y ?_, hr.procs⟩, hca⟩⟩
    · have hne : y ≠ x := by
        intro hcon
        rw [hcon, Shape.link_self] at hy
        cases hy
      rw [Shape.link_other _ _ _ hne] at hy
      rw [hl.pages y hne]
      exact hr.settled y q hy (by rw [← hxid]; exact hne)
    · change (s₁.pages x).kva = ((linkLeaf (s.pages id).kva (vpn0 va) va x s₁).pages x).kva
      rw [hpage]
    · have hne : y ≠ x := by
        obtain ⟨r, hr'⟩ := Option.ne_none_iff_exists'.mp hy
        rw [hxid]
        exact Takes.hold_some h y hr'
      change (linkLeaf (s.pages id).kva (vpn0 va) va x s₁).pages y = s.pages y
      rw [hl.pages y hne]
      exact hr.pages y hy hns
    · right
      by_cases hne : y = x
      · rw [hne]
        change ((linkLeaf (s.pages id).kva (vpn0 va) va x s₁).pages x).status = st
        rw [hpage, hxid]
        exact hr.status
      · rw [Shape.link_other _ _ _ hne, hold_other _ _ (by rw [← hxid]; exact hne)] at hy'
        exact absurd hy hy'
    · change ((linkLeaf (s.pages id).kva (vpn0 va) va x s₁).pages y).status = _ at hy
      by_cases hne : y = x
      · rw [hne, hpage] at hy
        rw [hne]
        exact hy
      · rwa [hl.pages y hne] at hy
  · rcases hf with ⟨_, hp, hpage, _⟩ | ⟨hout, _, _⟩
    · rw [if_pos hp]
      exact ⟨own, k, hs, hk, hin k hk, hpage, .refl _ _ _, .refl _ _ _⟩
    · exact absurd (hin k hk) hout

/-- The walk to the last table puts nothing away that it is made for. -/
theorem Table.page_res {own₁ own₂ : Owners} {m l : Nat} {r₁ r₂ : Nat × State}
    (hT₁ : Table root own p (vpn2 va) [] s own₁ m r₁)
    (hT₂ : Table root own₁ p (vpn1 va) [vpn2 va] r₁.2 own₂ l r₂)
    (hin : ∀ k, own k = some (p, some (pathOf va)) → Res s k) (k : Nat)
    (hk : own₂ k = some (p, some (pathOf va))) : Res r₂.2 k := by
  rcases hT₂.new with ⟨rfl, hs₂⟩ | ⟨_, hnone, _⟩
  · rcases hT₁.new with ⟨rfl, hs₁⟩ | ⟨_, hnone, _⟩
    · rw [hs₂, hs₁]
      exact hin k hk
    · exact absurd hT₂.table (hnone l _)
  · exact absurd hk (hnone k _)

/-- `alloc_page_helper` gives a mapped page, in each of its branches. -/
theorem allocPageHelper_mapped (hs : Sane root own s) {d : Nat} (hd : own d = some (p, some []))
    (hu : User root (vpn2 va)) (hst : st = .swapable ∨ st = .unswapable)
    (hin : ∀ k, own k = some (p, some (pathOf va)) → Res s k)
    (hnot : ∀ id, own id = some (p, some [vpn1 va, vpn2 va]) →
      ¬ Shared own s p (s.mem (s.pages id).kva (vpn0 va))) :
    Holds AnyStop (fun r => ∃ own' x, Mapped root own va p st s own' x r)
      (allocPageHelper va p st s) := by
  unfold allocPageHelper
  rw [hs.shape.dir d p hd]
  refine Holds.bind (tableAt_table hs hd (by simp) fun _ => hu) fun r hr => ?_
  obtain ⟨own₁, m, hT₁⟩ := hr
  obtain ⟨second, s₁⟩ := r
  simp only
  rw [show second = (s₁.pages m).kva from hT₁.kva]
  refine Holds.bind (tableAt_table hT₁.sane hT₁.table (by simp) (by simp)) fun r hr => ?_
  obtain ⟨own₂, l, hT₂⟩ := hr
  obtain ⟨third, s₂⟩ := r
  have hthird : third = (s₂.pages l).kva := hT₂.kva
  simp only [setPage_self]
  rw [hthird]
  have hin₂ : ∀ k, own₂ k = some (p, some (pathOf va)) → Res s₂ k := hT₁.page_res hT₂ hin
  have hnot₂ : ¬ Shared own₂ s₂ p (s₂.mem (s₂.pages l).kva (vpn0 va)) := by
    intro hshared
    rcases hT₂.new with ⟨rfl, hs₂⟩ | ⟨_, _, hempty⟩
    · rcases hT₁.new with ⟨rfl, hs₁⟩ | ⟨_, hnone, _⟩
      · simp only at hs₁ hs₂
        rw [hs₂, hs₁] at hshared
        exact hnot l hT₂.table hshared
      · exact absurd hT₂.table (hnone l _)
    · have habs := (hempty (vpn0 va)).1
      simp only at habs
      rw [hthird, hshared.1] at habs
      cases habs
  refine (allocLeaf_mapped hT₂.sane hT₂.table hst hin₂ hnot₂).mono fun r hr => ?_
  obtain ⟨own₃, x, hM⟩ := hr
  have hg₂ := hT₁.grows.trans hT₂.grows (Or.inl rfl)
  have hca : Carries nobody own s r.2 :=
    (hT₁.carries.trans hT₂.carries fun y q π' hy _ => hT₁.grows.kept y _ hy).trans hM.carries
      fun y q π' hy _ => hg₂.kept y _ hy
  refine ⟨own₃, x, hM.sane, hM.page, hM.res, hM.kva, ?_, hca⟩
  have hall : ∀ y, own y = none → own₂ y ≠ none → (s₂.pages y).status = .unswapable := by
    intro y hy hy'
    rcases hg₂.added y hy hy' with h1 | h1
    · exact h1
    · exact h1
  have hg : Grows st own own₂ s s₂ :=
    ⟨hg₂.kept, hg₂.pages, fun y hy hy' => Or.inl (hall y hy hy'), hg₂.alone, hg₂.procs⟩
  exact hg.trans hM.grows (Or.inr (Or.inr hall))

/-! ## Pages that come back -/

section Brings

variable {own : Owners} {p k id i : Nat} {π : List Nat}

/-- A page is brought back to a frame that is nobody's. -/
structure Fetch (own : Owners) (p k id i va kva : Nat) (π : List Nat) (s s' : State) : Prop where
  table : own id = some (p, some π)
  len : π.length = 2
  page : own k = some (p, some (i :: π))
  path : i :: π = pathOf va
  out : ¬ Res s k
  given : Given s kva
  free : ∀ x, own x ≠ none → Res s x → (s.pages x).kva ≠ kva
  brings : Brings k (s.pages id).kva i va kva s s'

/-- The page that comes back is in memory. -/
theorem Fetch.res (hf : Fetch own p k id i va kva π s s') : Res s' k := by
  unfold Res
  rw [hf.brings.page]
  exact fun hcon => by cases hcon

theorem Fetch.res_other (hf : Fetch own p k id i va kva π s s') (hx : x ≠ k) :
    Res s' x ↔ Res s x := by
  unfold Res
  rw [hf.brings.pages x hx]

/-- The entry of a page that is out: absent, on the disk, and noted in the descriptor. -/
theorem Fetch.entry (h : Shape root own s) (hf : Fetch own p k id i va kva π s s') :
    (s.mem (s.pages id).kva i).has present = false ∧
      (s.mem (s.pages id).kva i).has inSd = true ∧ (s.pages k).pte = some ((s.pages id).kva, i) := by
  have hpte := (h.leaf k p _ hf.page (by simp [hf.len])).2 id hf.table
  rcases h.filled hf.page hf.table with ⟨hres, _⟩ | ⟨_, hp, hsd⟩
  · exact absurd hres hf.out
  · exact ⟨hp, hsd, hpte⟩

/-- The links of the tables with the page back. -/
theorem Fetch.links (h : Shape root own s) (hf : Fetch own p k id i va kva π s s') :
    Shape.Links root own s s' id k p i π := by
  have hfree : ∀ y q π', own y = some (q, some π') → π'.length ≤ 2 → (s.pages y).kva ≠ kva :=
    fun y q π' hy hπ' => hf.free y (by rw [hy]; simp) (h.table_res hy hπ')
  have hres₀ : Res s id := h.table_res hf.table (by rw [hf.len])
  obtain ⟨hp, hsd, hpte⟩ := hf.entry h
  have hbits := return_bits _ (has_eq_false.mp hp) (has_eq_true.mp hsd)
  have hframe : Frame kva := hf.given.frame ⟨h.room.2.2.1, h.room.2.2.2⟩
  constructor
  case table => exact hf.table
  case len => rw [hf.len]
  case user =>
    intro hnil
    have hlen := hf.len
    rw [hnil] at hlen
    cases hlen
  case page => exact Or.inl ⟨hf.page, hf.len⟩
  case pages => exact hf.brings.pages
  case mem =>
    intro y q π' j hy hπ' hne
    refine hf.brings.mem _ j ?_ (hfree y q π' hy hπ')
    rcases hne with hne | hne
    · exact Or.inl (h.kva_ne hy hπ' (by rw [hf.table]; simp) hres₀ hne)
    · exact Or.inr hne
  case entry =>
    refine Or.inl ⟨hf.res, ?_, ?_, fun _ => ?_⟩
    · rw [hf.brings.entry]
      exact has_eq_true.mpr hbits.1
    · rw [hf.brings.entry, hf.brings.page]
      exact hframe.pageOf_eq rfl
    · rw [hf.brings.entry]
      exact has_eq_false.mpr hbits.2
  case status =>
    refine ⟨fun hlen => ?_, fun hcon => absurd hf.res hcon⟩
    have := hf.len
    omega
  case alone =>
    intro hst
    refine hf.out ?_
    unfold Res
    rw [hst]
    exact fun hcon => by cases hcon
  case frame =>
    intro _
    rw [hf.brings.page]
    exact ⟨hf.given, fun y _ hyo hyr => hf.free y hyo hyr⟩
  case empty =>
    intro hlen
    have := hf.len
    omega
  case leaf =>
    intro _
    rw [hf.brings.page]
    exact ⟨hf.path, hpte⟩
  case kernel =>
    intro j
    have h1 := h.kva_ne_root (by rw [hf.table]; simp) hres₀
    have h2 : pa2kva pgdirPa ≠ kva := by
      intro hcon
      have hlo := hf.given.1
      rw [← hcon] at hlo
      exact absurd hlo (by decide)
    exact hf.brings.mem _ j (Or.inl h1.symm) h2
  case pageId => exact hf.brings.pageId
  case kernMemCurr => exact hf.brings.kernMemCurr
  case procs => exact hf.brings.procs

/-- A page that comes back makes none copy on write. -/
theorem Fetch.alone (hf : Fetch own p k id i va kva π s s') (x : Nat)
    (hx : (s'.pages x).status = .copyOnWrite) : (s.pages x).status = .copyOnWrite := by
  by_cases hne : x = k
  · rw [hne, hf.brings.page] at hx
    cases hx
  · rwa [hf.brings.pages x hne] at hx

/-- A page that comes back keeps the tables in shape. -/
theorem Fetch.shape (h : Shape root own s) (hf : Fetch own p k id i va kva π s s') :
    Shape root own s' := by
  have hu := h.update (hf.links h)
  rwa [Shape.link_eq hf.page] at hu

/-- The pages that are still out stay in their sectors. -/
theorem Fetch.stored (h : Shape root own s) (hst : Stored own s)
    (hf : Fetch own p k id i va kva π s s') : Stored own s' := by
  have hu := hst.update h (hf.links h) hf.res hf.brings.writes
  rwa [Shape.link_eq hf.page] at hu

/-- One page more in memory. -/
theorem Fetch.count (h : Shape root own s) (hf : Fetch own p k id i va kva π s s') :
    count s' p = count s p + 1 := by
  unfold Mm.count
  rw [hf.brings.procs]
  refine countP_flip (h.nodup p) ((h.listed p k).mpr ⟨_, hf.page⟩)
    (decide_eq_true hf.res) (decide_eq_false hf.out) fun y _ hy => ?_
  simp only [hf.res_other hy]

theorem Fetch.tally_other (h : Shape root own s) (hf : Fetch own p k id i va kva π s s') {q : Nat}
    (hq : q ≠ p) (ht : Tally s q) : Tally s' q := by
  have hprocs := hf.brings.procs
  refine ht.congr (by rw [hprocs]) (by rw [hprocs]) (by rw [hprocs]) fun y hy => ?_
  exact hf.res_other (h.not_listed hf.page hq y hy)

/-- A page that comes back has the content of its sectors, and the others keep theirs. -/
theorem Fetch.carries (h : Shape root own s) (hf : Fetch own p k id i va kva π s s') :
    Carries nobody own s s' := by
  refine ⟨by rw [hf.brings.writes], fun _ x q π' e c a hx hπ' _ hkept => ?_⟩
  by_cases hxk : x = k
  · rw [hxk] at hkept ⊢
    obtain ⟨_, _, hpte₀⟩ := hf.entry h
    obtain ⟨hpte, _, hout⟩ := hkept
    rw [hpte₀] at hpte
    cases hpte
    obtain ⟨hc, ha⟩ := hout hf.out
    refine ⟨by rw [hf.brings.page]; exact hpte₀,
      fun _ => ⟨fun j hj => ?_, ?_⟩, fun hr => absurd hf.res hr⟩
    · rw [hf.brings.page]
      exact (hf.brings.frame j hj).trans (hc j hj)
    · rw [hf.brings.entry]
      exact ha
  · refine (hf.links h).carried h hx hπ' hxk (fun hr j => ?_) (fun hout t j hpte m hm => ?_) hkept
    · refine hf.brings.mem _ j (Or.inl ?_) (hf.free x (by rw [hx]; simp) hr)
      refine h.frames_ne (by rw [hx]; simp) (by rw [hf.table]; simp) hr
        (h.table_res hf.table (by rw [hf.len])) fun hcon => ?_
      rw [hcon, hf.table] at hx
      cases hx
      have := hf.len
      omega
    · rw [hf.brings.sd]

/-- Only the page's own descriptor has the address of its entry. -/
theorem Shape.findPage_eq (h : Shape root own s) (hid : own id = some (p, some π))
    (hπ : π.length = 2) (hk : own k = some (p, some (i :: π))) :
    findPage (fun q => q.pte = some ((s.pages id).kva, i)) (s.procs p).pagehead s = .ok k := by
  have hpte := (h.leaf k p _ hk (by simp [hπ])).2 id hid
  have hfind : (s.procs p).pagehead.find?
      (fun y => (s.pages y).pte = some ((s.pages id).kva, i)) = some k := by
    refine find?_eq_of_unique ((h.listed p k).mpr ⟨_, hk⟩) (decide_eq_true hpte) fun y hy hPy => ?_
    have hy' := of_decide_eq_true hPy
    obtain ⟨r, hr⟩ := (h.listed p y).mp hy
    cases r with
    | none =>
        rw [(h.loose y p hr).2.2] at hy'
        cases hy'
    | some π' =>
        have hlen : ¬ π'.length < 3 := by
          intro hlt
          rw [((h.status y p π' hr).1 hlt).2] at hy'
          cases hy'
        cases π' with
        | nil => simp at hlen
        | cons j π' =>
            obtain ⟨hle, _, id', hid'⟩ := h.parent y p j π' hr
            have hπ' : π'.length = 2 := by
              simp at hlen
              omega
            rw [(h.leaf y p _ hr (by simp [hπ'])).2 id' hid'] at hy'
            injection hy' with hpair
            injection hpair with hkva hj
            have heq := h.frame_inj id' id (by rw [hid']; simp) (by rw [hid]; simp)
              (h.table_res hid' (by omega)) (h.table_res hid (by omega)) hkva
            rw [heq, hid] at hid'
            cases hid'
            have hj' : j = i := hj
            rw [hj'] at hr
            exact h.path_inj y k p _ hr hk
  unfold findPage
  rw [hfind]

end Brings

/-- An eviction and the return of a page for it. -/
theorem swapIn_sane (hs : Sane root own s) (hid : own id = some (p, some [vpn1 va, vpn2 va]))
    (hk : own k = some (p, some (pathOf va))) (hout : ¬ Res s k) :
    Holds AnyStop (fun s' => Sane root own s' ∧ s'.procs = s.procs ∧
        ∃ k₁ id₁ i₁ π₁ s₁, Spill own p k₁ id₁ i₁ π₁ s s₁ ∧
          Fetch own p k id (vpn0 va) va (s.pages k₁).kva [vpn1 va, vpn2 va] s₁ s')
      (swapIn (s.pages id).kva (vpn0 va) va p s) := by
  have hta := hs.tally p
  have hfull := hta.full ⟨k, (hs.shape.listed p k).mpr ⟨_, hk⟩, hout⟩
  unfold swapIn
  rw [if_pos hfull]
  refine Holds.bind (doSwap_spill hs.shape hs.settled) fun r hr => ?_
  obtain ⟨k₁, id₁, i₁, π₁, hkva, hsp⟩ := hr
  obtain ⟨kva, s₁⟩ := r
  simp only at hkva hsp ⊢
  have h₁ := hsp.shape hs.shape
  have hkk : k ≠ k₁ := by
    intro hcon
    rw [hcon] at hout
    exact hout hsp.res
  have hidk : id ≠ k₁ := by
    intro hcon
    have hpg := hsp.page
    rw [← hcon, hid] at hpg
    have hl := congrArg List.length (Option.some.inj (Prod.mk.inj (Option.some.inj hpg)).2)
    have := hsp.len
    simp at hl
    omega
  have hpid : s₁.pages id = s.pages id := hsp.evicts.pages id hidk
  have hout₁ : ¬ Res s₁ k := fun hcon => hout ((hsp.res_other hkk).mp hcon)
  obtain ⟨hgiven, hfree⟩ := hsp.free hs.shape
  have hfind := h₁.findPage_eq hid rfl hk
  obtain ⟨s₂, hs₂, hbr⟩ : ∃ s₂, swapToMem (s₁.pages id).kva (vpn0 va) va kva p s₁ = .ok s₂ ∧
      Brings k (s₁.pages id).kva (vpn0 va) va kva s₁ s₂ := by
    refine swapToMem_brings hfind (not_not.mp hout₁) ((h₁.status k p _ hk).2 hout₁) ?_
    rw [hkva]
    exact (hfree id (by rw [hid]; simp) (h₁.table_res hid (by simp))).symm
  rw [hkva] at hbr hs₂ ⊢
  have hf : Fetch own p k id (vpn0 va) va (s.pages k₁).kva [vpn1 va, vpn2 va] s₁ s₂ :=
    ⟨hid, rfl, hk, rfl, hout₁, hgiven, hfree, hbr⟩
  rw [hpid] at hs₂
  rw [hs₂]
  have hdr₁ : Drawn s₁ := hs.drawn.next hsp.evicts.writes hsp.evicts.sector
  have hprocs : s₂.procs = s.procs := hbr.procs.trans hsp.evicts.procs
  refine ⟨⟨⟨hf.shape h₁, fun q => ?_, hf.stored h₁ (hsp.stored hs.shape hs.drawn hs.stored),
    hdr₁.same hbr.writes hbr.sector⟩, fun y q hy => ?_⟩, hprocs, k₁, id₁, i₁, π₁, s₁, hsp, hf⟩
  · by_cases hq : q = p
    · rw [hq]
      refine ⟨?_, ?_, fun _ => ?_⟩
      · rw [hf.count h₁, ← hsp.count hs.shape, hta.count, hprocs]
      · rw [hprocs]
        exact hta.bound
      · rw [hprocs]
        exact hfull
    · exact hf.tally_other h₁ hq (hsp.tally_other hs.shape hq (hs.tally q))
  · have hne : y ≠ k := by
      intro hcon
      rw [hcon, hk] at hy
      cases hy
    rw [hbr.pages y hne]
    exact hsp.settled hs.settled y q hy

/-! ## Page faults -/

/-- The tables a walk goes through are those of the process. -/
theorem Shape.of_leads (h : Shape root own s) {d : Nat} (hd : own d = some (p, some []))
    (hu : User root (vpn2 va)) (hl : Leads (s.procs p).pgdir va t s) :
    ∃ id, own id = some (p, some [vpn1 va, vpn2 va]) ∧ t = (s.pages id).kva := by
  obtain ⟨htop, hsecond, hthird⟩ := hl
  rw [h.dir d p hd] at htop hsecond hthird
  rcases h.slot d p [] (vpn2 va) hd (by simp) (fun _ => hu) with ⟨hor, _⟩ | ⟨m, hm, hf⟩
  · rcases hor with ⟨habs, _⟩ | ⟨hlen, _⟩
    · rw [habs] at htop
      cases htop
    · cases hlen
  · rw [(h.filled_table hm hd (by simp)).2] at hsecond hthird
    rcases h.slot m p _ (vpn1 va) hm (by simp) (by simp) with ⟨hor, _⟩ | ⟨l, hl, _⟩
    · rcases hor with ⟨habs, _⟩ | ⟨hlen, _⟩
      · rw [habs] at hsecond
        cases hsecond
      · cases hlen
    · rw [(h.filled_table hl hm (by simp)).2] at hthird
      exact ⟨l, hl, hthird.symm⟩

/-- A page that the process has is found. -/
theorem Shape.pteChecker_some (h : Shape root own s) (hk : own k = some (p, some (pathOf va))) :
    ∃ r, pteChecker va (s.procs p).pgdir s = some r := by
  obtain ⟨_, _, id, hid⟩ := h.parent k p _ _ hk
  have hl := h.leads hid
  refine ⟨((s.pages id).kva, vpn0 va), ?_⟩
  rw [hl.pteChecker]
  rcases h.filled hk hid with ⟨_, hp, _⟩ | ⟨_, _, hsd⟩
  · rw [hp, Bool.true_or, if_pos rfl]
  · rw [hsd, Bool.or_true, if_pos rfl]

/-- Setting bits of an entry that the kernel does not walk by. -/
theorem Sane.touch (hs : Sane root own s) (hid : own id = some (p, some π)) (hπ : π.length ≤ 2)
    (i : Nat) {f : Pte → Pte} (hf : ∀ e, Like e (f e)) :
    Sane root own (modifyWord (s.pages id).kva i f s) := by
  have ha := alters_modifyWord hs.shape hid hπ i hf
  exact ⟨ha.near hs.toNear, ha.settled hs.settled⟩

/-- Processes that run have a root table. -/
def Rooted (own : Owners) (s : State) : Prop :=
  ∀ p, (s.procs p).live = true → ∃ d, own d = some (p, some [])

/-- Processes keep their roots when pages are added. -/
theorem Rooted.grows (h : Rooted own s) (hg : Grows st own own' s s') : Rooted own' s' := by
  intro p hlive
  rw [(hg.procs p).2] at hlive
  obtain ⟨d, hd⟩ := h p hlive
  exact ⟨d, hg.kept d _ hd⟩

/-- The page `k` comes back from the swap area, for another one that is put away. -/
def Comes (own : Owners) (p k : Nat) (s s' : State) : Prop :=
  ∃ va id k₁ id₁ i₁ π₁ s₁, Spill own p k₁ id₁ i₁ π₁ s s₁ ∧
    Fetch own p k id (vpn0 va) va (s.pages k₁).kva [vpn1 va, vpn2 va] s₁ s'

/-- What an event leaves, where the process that is gone has been replaced. -/
structure After (root : Nat → Pte) (gone : Nat → Prop) (own : Owners) (s : State) (own' : Owners)
    (s' : State) : Prop where
  sane : Sane root own' s'
  rooted : Rooted own' s'
  kept : ∀ x q r, own x = some (q, r) → ¬ gone q → own' x = some (q, r)
  alone : ∀ x, (s'.pages x).status = .copyOnWrite → (s.pages x).status = .copyOnWrite
  more : s.writes.length ≤ s'.writes.length
  carries : s'.writes.length ≤ 2 ^ 29 → ∀ k q π e c a, own k = some (q, some π) → π.length = 3 →
    ¬ gone q → ¬ Res s k ∨ ¬ Res s' k → Kept s k e c a → Kept s' k e c a
  back : ∀ k q π, own k = some (q, some π) → ¬ gone q → ¬ Res s k → Res s' k →
    Comes own q k s s'

/-- The invariant of the system between two events. -/
def Good (root : Nat → Pte) (s : State) : Prop := ∃ own, Sane root own s ∧ Rooted own s

/-- What an event leaves is good. -/
theorem After.good {gone : Nat → Prop} (h : After root gone own s own' s') : Good root s' :=
  ⟨own', h.sane, h.rooted⟩

theorem After.refl (hs : Sane root own s) (hr : Rooted own s) : After root nobody own s own s :=
  ⟨hs, hr, fun _ _ _ hx _ => hx, fun _ hx => hx, le_rfl, fun _ _ _ _ _ _ _ _ _ _ _ hkept => hkept,
    fun _ _ _ _ _ hout hres => absurd hres hout⟩

/-- Pages are added, and others put away for them. -/
theorem After.of_grows (hs : Sane root own' s') (hr : Rooted own s) (hg : Grows st own own' s s')
    (hc : Carries nobody own s s') : After root nobody own s own' s' := by
  refine ⟨hs, hr.grows hg, fun x q r hx _ => hg.kept x _ hx, hg.alone, hc.more,
    fun hlen k q π e c a hk hπ hgone _ => hc.kept hlen k q π e c a hk hπ hgone,
    fun k q π hk _ hout hres => absurd hres ?_⟩
  have hst : (s.pages k).status = .notInMem := not_not.mp hout
  unfold Res at hout ⊢
  rw [hg.pages k (by rw [hk]; simp) (by rw [hst]; decide)]
  exact hout

/-- Pages and sectors are left alone, but for one page in memory. -/
theorem After.of_change (hs : Sane root own s') (hr : Rooted own s) (hpages : s'.pages = s.pages)
    (hprocs : s'.procs = s.procs) (hw : s'.writes = s.writes) (hres : Res s x)
    (hc : ∀ k q π e c a, k ≠ x → own k = some (q, some π) → π.length = 3 → Kept s k e c a →
      Kept s' k e c a) : After root nobody own s own s' := by
  have hR : ∀ k, Res s' k ↔ Res s k := by
    intro k
    unfold Res
    rw [hpages]
  refine ⟨hs, ?_, fun _ _ _ h _ => h, fun _ hk => by rwa [hpages] at hk, by rw [hw], ?_,
    fun k _ _ _ _ hout hk => ?_⟩
  · intro q hq
    rw [hprocs] at hq
    exact hr q hq
  · intro _ k q π e c a hk hπ _ hor hkept
    refine hc k q π e c a (fun hcon => ?_) hk hπ hkept
    rw [hcon, hR, or_self] at hor
    exact hor hres
  · exact absurd ((hR k).mp hk) hout

/-- A fault where nothing is mapped. -/
theorem fault_unmapped (hs : Sane root own s) (hr : Rooted own s) (hlive : (s.procs p).live = true)
    (hu : User root (vpn2 va)) (hnone : pteChecker va (s.procs p).pgdir s = none) :
    Holds AnyStop (fun r => ∃ own', After root nobody own s own' r.2)
      (allocPageHelper va p .swapable s) := by
  obtain ⟨d, hd⟩ := hr p hlive
  have hin : ∀ k, own k = some (p, some (pathOf va)) → Res s k := by
    intro k hk
    obtain ⟨r, hsome⟩ := hs.shape.pteChecker_some hk
    rw [hnone] at hsome
    cases hsome
  have hnot : ∀ id, own id = some (p, some [vpn1 va, vpn2 va]) →
      ¬ Shared own s p (s.mem (s.pages id).kva (vpn0 va)) := by
    intro id hid hshared
    rw [(hs.shape.leads hid).pteChecker, hshared.1, Bool.true_or, if_pos rfl] at hnone
    cases hnone
  refine (allocPageHelper_mapped hs hd hu (Or.inl rfl) hin hnot).mono fun r hM => ?_
  obtain ⟨own', x, hM⟩ := hM
  exact ⟨own', .of_grows hM.sane hr hM.grows hM.carries⟩

/-- Where something is mapped: the table and the page. -/
theorem fault_mapped (hs : Sane root own s) (hr : Rooted own s) (hlive : (s.procs p).live = true)
    (hu : User root (vpn2 va)) (hsome : pteChecker va (s.procs p).pgdir s = some (t, i)) :
    ∃ id k π, own id = some (p, some [vpn1 va, vpn2 va]) ∧ t = (s.pages id).kva ∧ i = vpn0 va ∧
      own k = some (p, some π) ∧ π.length = 3 ∧
      (∀ x, own x = some (p, some (pathOf va)) → x = k) ∧
      ((s.mem t i).has inSd = true → π = pathOf va ∧ ¬ Res s k) ∧
      ((s.mem t i).has inSd = false → Res s k ∧ (s.mem t i).has present = true ∧
        pageOf (s.mem t i) = (s.pages k).kva) := by
  obtain ⟨d, hd⟩ := hr p hlive
  obtain ⟨hi, hl, hor⟩ := leads_of_pteChecker hsome
  obtain ⟨id, hid, ht⟩ := hs.shape.of_leads hd hu hl
  simp only at hi ht hor
  rw [ht, hi] at hor
  rcases hs.shape.slot id p _ (vpn0 va) hid (by simp) (by simp) with ⟨hslot, hnone⟩ | ⟨k, hk, hf⟩
  · rcases hslot with ⟨habs, hsd⟩ | ⟨_, hp, hsd, k, π, hk, hπ, hst, hpage⟩
    · rw [habs, hsd rfl] at hor
      rcases hor with hor | hor
      · cases hor
      · cases hor
    · refine ⟨id, k, π, hid, ht, hi, hk, hπ, fun x hx => absurd hx (hnone x), ?_⟩
      rw [ht, hi, hsd]
      refine ⟨fun hcon => (by cases hcon), fun _ => ⟨?_, hp, hpage⟩⟩
      unfold Res
      rw [hst]
      exact fun hcon => by cases hcon
  · refine ⟨id, k, _, hid, ht, hi, hk, rfl, fun x hx => hs.shape.path_inj x k p _ hx hk, ?_⟩
    rw [ht, hi]
    rcases hf with ⟨hres, hp, hpage, hsd⟩ | ⟨hout, _, hsd⟩
    · rw [hsd rfl]
      exact ⟨fun hcon => (by cases hcon), fun _ => ⟨hres, hp, hpage⟩⟩
    · rw [hsd]
      exact ⟨fun _ => ⟨rfl, hout⟩, fun hcon => (by cases hcon)⟩

/-- A page that is found is one of the list. -/
theorem findPage_mem (P : PageInfo → Bool) (l : List Nat) (s : State) :
    Holds AnyStop (fun id => id ∈ l) (findPage P l s) := by
  unfold findPage
  cases hf : l.find? fun id => P (s.pages id) with
  | some x => exact List.mem_of_find?_eq_some hf
  | none =>
      cases hlast : l.getLast? with
      | some x => exact List.mem_of_getLast? hlast
      | none => trivial

/-- No page is shared. -/
def Unshared (s : State) : Prop := ∀ x, (s.pages x).status ≠ .copyOnWrite

/-- Without snapshots there is nothing to copy. -/
theorem copyOnWrite_refused (h : Unshared s) (t i stval p : Nat) :
    Holds AnyStop (fun _ => False) (copyOnWrite t i stval p s) := by
  unfold copyOnWrite
  refine Holds.bind (findPage_mem _ _ s) fun x _ => ?_
  rw [if_pos (h x)]
  trivial

/-- A fault on a page that is out. -/
theorem fault_out (hs : Sane root own s) (hr : Rooted own s)
    (hid : own id = some (p, some [vpn1 va, vpn2 va])) (hk : own k = some (p, some (pathOf va)))
    (hout : ¬ Res s k) :
    Holds AnyStop (fun s' => ∃ own', After root nobody own s own' s')
      (swapIn (s.pages id).kva (vpn0 va) va p s) := by
  refine (swapIn_sane hs hid hk hout).mono fun s' h => ?_
  obtain ⟨hs', hprocs, k₁, id₁, i₁, π₁, s₁, hsp, hf⟩ := h
  have hc : Carries nobody own s s' := (hsp.carries hs.shape hs.drawn hs.stored).trans
    (hf.carries (hsp.shape hs.shape)) fun _ _ _ hx _ => hx
  refine ⟨own, hs', fun q hq => hr q ?_, fun _ _ _ hx _ => hx,
    fun x hx => hsp.alone x (hf.alone x hx), hc.more, fun hlen x q π e c a hx hπ hgone _ => hc.kept hlen x q π e c a hx hπ hgone,
    fun x q π hx _ hxo hxr => ?_⟩
  · rwa [hprocs] at hq
  · by_cases hxk : x = k
    · rw [hxk, hk] at hx
      cases hx
      rw [hxk]
      exact ⟨va, id, k₁, id₁, i₁, π₁, s₁, hsp, hf⟩
    · have hx₁ := (hf.res_other hxk).mp hxr
      have hne : x ≠ k₁ := by
        intro hcon
        rw [hcon] at hx₁
        exact hsp.out hx₁
      exact absurd ((hsp.res_other hne).mp hx₁) hxo

/-- A fault that only sets bits. -/
theorem fault_touch (hs : Sane root own s) (hr : Rooted own s)
    (hid : own id = some (p, some [vpn1 va, vpn2 va])) (hres : Res s k)
    (honly : ∀ x, own x = some (p, some (pathOf va)) → x = k) {f : Pte → Pte}
    (hf : ∀ e, Like e (f e)) :
    After root nobody own s own (modifyWord (s.pages id).kva (vpn0 va) f s) := by
  have h := hs.shape
  refine .of_change (hs.touch hid (by simp) _ hf) hr rfl rfl rfl hres
    fun x q π e c a hne hx hπ hkept => ?_
  have hother : ∀ j, (s.pages x).kva = (s.pages id).kva → Res s x →
      (modifyWord (s.pages id).kva (vpn0 va) f s).mem (s.pages x).kva j = s.mem (s.pages x).kva j := by
    intro j hcon hrx
    refine absurd hcon (h.frames_ne (by rw [hx]; simp) (by rw [hid]; simp) hrx
      (h.table_res hid (by simp)) fun hcon => ?_)
    rw [hcon, hid] at hx
    cases hx
    cases hπ
  refine hkept.same rfl (fun t i hpte => ?_) (fun hrx j => ?_) fun _ _ _ _ _ _ => rfl
  · -- the entry of another page is another one
    obtain ⟨i', π', id', rfl, hπ', hid', hpte'⟩ := h.entryOf hx hπ
    rw [hpte'] at hpte
    cases hpte
    have hpair : ¬ ((s.pages id').kva = (s.pages id).kva ∧ i = vpn0 va) := by
      intro hcon
      obtain ⟨hkva, rfl⟩ := hcon
      have hids : id' = id := by
        by_contra hne'
        exact h.kva_ne hid' (by omega) (by rw [hid]; simp) (h.table_res hid (by simp)) hne' hkva
      rw [hids, hid] at hid'
      cases hid'
      exact hne (honly x hx)
    simp [modifyWord, setWord, hpair]
  · by_cases hkva : (s.pages x).kva = (s.pages id).kva
    · exact hother j hkva hrx
    · simp [modifyWord, setWord, hkva]

/-- A load fault keeps the invariant of the system. -/
theorem handleLoadPageFault_after (hs : Sane root own s) (hr : Rooted own s)
    (hlive : (s.procs p).live = true) (hu : User root (vpn2 va)) :
    Holds AnyStop (fun s' => ∃ own', After root nobody own s own' s')
      (handleLoadPageFault p va s) := by
  unfold handleLoadPageFault
  cases hc : pteChecker va (s.procs p).pgdir s with
  | none => exact Holds.bind (fault_unmapped hs hr hlive hu hc) fun r hafter => hafter
  | some ti =>
      obtain ⟨t, i⟩ := ti
      obtain ⟨id, k, π, hid, rfl, rfl, hk, hπ, honly, hout, hin⟩ := fault_mapped hs hr hlive hu hc
      simp only
      split_ifs with hsd hacc
      · obtain ⟨rfl, hnot⟩ := hout hsd
        exact fault_out hs hr hid hk hnot
      · trivial
      · exact ⟨own, fault_touch hs hr hid (hin (Bool.not_eq_true _ ▸ hsd)).1 honly like_accessed⟩

/-- A store of `p` to `va` is left to the copy-on-write branch. -/
def copies (p va : Nat) (s : State) : Bool :=
  match pteChecker va (s.procs p).pgdir s with
  | none => false
  | some (t, i) => !(s.mem t i).has inSd && !(s.mem t i).has write

/-- A store fault keeps the invariant of the system, where it copies nothing. -/
theorem handleStorePageFault_after (hs : Sane root own s) (hr : Rooted own s)
    (hlive : (s.procs p).live = true) (hu : User root (vpn2 va))
    (hcopy : Unshared s ∨ copies p va s = false) :
    Holds AnyStop (fun s' => ∃ own', After root nobody own s own' s')
      (handleStorePageFault p va s) := by
  unfold handleStorePageFault
  unfold copies at hcopy
  cases hc : pteChecker va (s.procs p).pgdir s with
  | none => exact Holds.bind (fault_unmapped hs hr hlive hu hc) fun r hafter => hafter
  | some ti =>
      obtain ⟨t, i⟩ := ti
      obtain ⟨id, k, π, hid, rfl, rfl, hk, hπ, honly, hout, hin⟩ := fault_mapped hs hr hlive hu hc
      simp only [hc] at hcopy ⊢
      split_ifs with hsd hwr hacc
      · obtain ⟨rfl, hnot⟩ := hout hsd
        exact fault_out hs hr hid hk hnot
      · trivial
      · exact ⟨own, fault_touch hs hr hid (hin (Bool.not_eq_true _ ▸ hsd)).1 honly like_dirty⟩
      · rcases hcopy with hcopy | hcopy
        · exact (copyOnWrite_refused hcopy _ _ va p).mono fun _ hfalse => hfalse.elim
        · simp [hsd, hwr] at hcopy

end Mm
