import OslabRiscv.Mm.Residency

/-!
# Runs

The start of a process and the stores of user programs keep the invariant as well, so
it holds in every state of every run in which programs keep to user addresses and take no
snapshots.  The accounts of frames and pages follow.
-/

namespace Mm

open Outcome

variable {root : Nat → Pte} {own own' : Owners} {s s' : State} {p id k x t i va kva : Nat}
  {π : List Nat} {st : PageStatus}

/-! ## Content -/

/-- Only the content of the frame `kva` differs. -/
structure Writes (kva : Nat) (s s' : State) : Prop where
  mem : ∀ a j, a ≠ kva → s'.mem a j = s.mem a j
  pages : s'.pages = s.pages
  sd : s'.sd = s.sd
  procs : s'.procs = s.procs
  pageId : s'.pageId = s.pageId
  kernMemCurr : s'.kernMemCurr = s.kernMemCurr
  sector : s'.sector = s.sector
  writes : s'.writes = s.writes

/-- Filling a frame writes this frame only. -/
theorem writes_setContent (kva : Nat) (c : Nat → Pte) (s : State) :
    Writes kva s (setContent kva c s) := by
  refine ⟨fun a j ha => ?_, rfl, rfl, rfl, rfl, rfl, rfl, rfl⟩
  simp [setContent, ha]

/-- Setting a word writes its frame only. -/
theorem writes_setWord (kva j : Nat) (e : Pte) (s : State) : Writes kva s (setWord kva j e s) := by
  refine ⟨fun a j' ha => ?_, rfl, rfl, rfl, rfl, rfl, rfl, rfl⟩
  simp [setWord, ha]

/-- What is in a page that is no table does not matter. -/
theorem Sane.content (hs : Sane root own s) {r : Option (List Nat)} (hx : own x = some (p, r))
    (hres : Res s x) (hr : ∀ π, r = some π → π.length = 3) (hw : Writes (s.pages x).kva s s') :
    Sane root own s' := by
  have h := hs.shape
  have hxs : own x ≠ none := by
    rw [hx]
    simp
  have hmem : ∀ y q π j, own y = some (q, some π) → π.length ≤ 2 →
      s'.mem (s.pages y).kva j = s.mem (s.pages y).kva j := by
    intro y q π j hy hπ
    refine hw.mem _ j (h.kva_ne hy hπ hxs hres fun hcon => ?_)
    rw [hcon, hx] at hy
    cases hy
    have := hr π rfl
    omega
  have ha : Alters own s s' := by
    constructor
    case page =>
      rw [hw.pages]
      exact fun _ => ⟨rfl, rfl, rfl⟩
    case status =>
      rw [hw.pages]
      exact fun _ => Or.inl rfl
    case entry =>
      intro y q π j hy hπ
      left
      rw [hmem y q π j hy hπ]
      exact .refl _
    case kernel => exact fun j => hw.mem _ j (h.kva_ne_root hxs hres).symm
    case pageId => exact hw.pageId
    case kernMemCurr => exact hw.kernMemCurr
    case procs => exact hw.procs
    case sector => exact hw.sector
    case writes => exact hw.writes
  exact ⟨ha.near hs.toNear, ha.settled hs.settled⟩

/-- A page of the last level may be written. -/
theorem Sane.write (hs : Sane root own s) {va : Nat} (hx : own x = some (p, some (pathOf va)))
    (hres : Res s x) (hw : Writes (s.pages x).kva s s') : Sane root own s' := by
  refine hs.content hx hres (fun π hπ => ?_) hw
  cases hπ
  rfl

/-- The other pages hold what they held. -/
theorem Shape.kept_of_mem (h : Shape root own s) {r : Option (List Nat)}
    (hx : own x = some (p, r)) (hres : Res s x) (hr : ∀ π, r = some π → π.length = 3)
    (hmem : ∀ a j, a ≠ (s.pages x).kva → s'.mem a j = s.mem a j) (hpages : s'.pages = s.pages)
    (hsd : s'.sd = s.sd) {q : Nat} {e : Nat × Nat} {c : Nat → Pte}
    {a : BitVec 10} (hne : k ≠ x)
    (hk : own k = some (q, some π)) (hπ : π.length = 3) (hkept : Kept s k e c a) :
    Kept s' k e c a := by
  have hxs : own x ≠ none := by
    rw [hx]
    simp
  refine hkept.same (by rw [hpages]) (fun t i hpte => ?_) (fun hrk j => ?_)
    fun _ _ _ _ _ _ => by rw [hsd]
  · obtain ⟨i', π', tab, rfl, hπ', htab, hpte'⟩ := h.entryOf hk hπ
    rw [hpte'] at hpte
    cases hpte
    refine hmem _ _ (h.kva_ne htab (by omega) hxs hres fun hcon => ?_)
    rw [hcon, hx] at htab
    cases htab
    have := hr π' rfl
    omega
  · exact hmem _ j (h.frames_ne (by rw [hk]; simp) hxs hrk hres hne)

/-- Where the hardware lets a user program store, there is a page of its process. -/
theorem translate_leads {e : Pte} (h : translate va t s = some (e, 0)) :
    ∃ t', Leads t va t' s ∧ e = s.mem t' (vpn0 va) ∧ e.has present = true := by
  simp only [translate] at h
  split_ifs at h with h1 h2 h3 h4 h5
  · simp at h
  · simp at h
  · rw [Bool.and_eq_true] at h5
    simp only [Option.some.injEq, Prod.mk.injEq] at h
    refine ⟨_, ⟨by simpa using h1, by simpa using h3, rfl⟩, h.1.symm, ?_⟩
    rw [← h.1]
    exact h5.1

/-- Behind an entry of the last level that is present there is a page in memory. -/
theorem Shape.mapped (h : Shape root own s) (hid : own id = some (p, some [vpn1 va, vpn2 va]))
    (hp : (s.mem (s.pages id).kva (vpn0 va)).has present = true) :
    ∃ k π, own k = some (p, some π) ∧ π.length = 3 ∧ Res s k ∧
      pageOf (s.mem (s.pages id).kva (vpn0 va)) = (s.pages k).kva := by
  rcases h.slot id p _ (vpn0 va) hid (by simp) (by simp) with ⟨hor, _⟩ | ⟨k, hk, hf⟩
  · rcases hor with ⟨habs, _⟩ | ⟨_, _, _, k, π, hk, hπ, hst, hpage⟩
    · rw [habs] at hp
      cases hp
    · refine ⟨k, π, hk, hπ, ?_, hpage⟩
      unfold Res
      rw [hst]
      exact fun hcon => by cases hcon
  · rcases hf with ⟨hres, _, hpage, _⟩ | ⟨_, hnp, _⟩
    · exact ⟨k, _, hk, rfl, hres, hpage⟩
    · rw [hnp] at hp
      cases hp

/-- A store of the program keeps the invariant of the system. -/
theorem put_after (hs : Sane root own s) (hr : Rooted own s) (hlive : (s.procs p).live = true)
    (hu : User root (vpn2 va)) (word : Pte) :
    ∃ own', After root nobody own s own' (put p va word s) := by
  unfold put
  split
  · rename_i e htr
    split_ifs with hok
    · obtain ⟨t', hl, he, hp⟩ := translate_leads htr
      obtain ⟨d, hd⟩ := hr p hlive
      obtain ⟨id, hid, ht⟩ := hs.shape.of_leads hd hu hl
      rw [he, ht] at hp
      obtain ⟨k, π, hk, hπ, hres, hpage⟩ := hs.shape.mapped hid hp
      have hleaf : ∀ π', some π = some π' → π'.length = 3 := by
        intro π' hπ'
        cases hπ'
        exact hπ
      have hw : Writes (s.pages k).kva s (setWord (pageOf e) (va / 8 % 512) word s) := by
        rw [he, ht, hpage]
        exact writes_setWord _ _ _ _
      refine ⟨own, .of_change (hs.content hk hres hleaf hw) hr rfl rfl rfl hres ?_⟩
      intro y q π e c a hne hy hπ hkept
      exact hs.shape.kept_of_mem hk hres hleaf hw.mem rfl rfl hne hy hπ hkept
    · exact ⟨own, .refl hs hr⟩
  · exact ⟨own, .refl hs hr⟩

/-! ## A new process -/

/-- What the process had before belongs to nobody. -/
def drop (own : Owners) (p : Nat) : Owners := fun x => (own x).filter fun r => decide (r.1 ≠ p)

/-- After the drop a page belongs to whom it did, unless that was `p`. -/
theorem drop_eq_some {q : Nat} {r : Option (List Nat)} :
    drop own p x = some (q, r) ↔ own x = some (q, r) ∧ q ≠ p := by
  unfold drop
  rw [Option.filter_eq_some_iff]
  simp

/-- What still has an owner had one. -/
theorem drop_ne_none (h : drop own p x ≠ none) : own x ≠ none := by
  intro hcon
  unfold drop at h
  rw [hcon] at h
  exact h rfl

theorem setProc_self (p : Nat) (r : Proc) (s : State) : (setProc p r s).procs p = r := if_pos rfl

theorem setProc_of_ne {q : Nat} (r : Proc) (s : State) (hq : q ≠ p) :
    (setProc p r s).procs q = s.procs q := if_neg hq

/-- The PCB as a new process finds it. -/
theorem reset_shape (h : Shape root own s) (p : Nat) :
    Shape root (drop own p) (setProc p ⟨true, 0, 0, maxPagetableNum, []⟩ s) := by
  have hp := setProc_self p ⟨true, 0, 0, maxPagetableNum, []⟩ s
  have hq : ∀ q, q ≠ p →
      (setProc p ⟨true, 0, 0, maxPagetableNum, []⟩ s).procs q = s.procs q :=
    fun q => setProc_of_ne _ s
  constructor
  case kernel => exact h.kernel
  case fresh =>
    intro y hy
    obtain ⟨h1, h2, h3⟩ := h.fresh y hy
    refine ⟨h1, ?_, h3⟩
    unfold drop
    rw [h2]
    rfl
  case nodup =>
    intro q
    by_cases hqp : q = p
    · rw [hqp, hp]
      exact List.nodup_nil
    · rw [hq q hqp]
      exact h.nodup q
  case listed =>
    intro q y
    by_cases hqp : q = p
    · rw [hqp, hp]
      refine ⟨fun hmem => (by cases hmem), fun hex => ?_⟩
      obtain ⟨r, hr⟩ := hex
      exact absurd rfl (drop_eq_some.mp hr).2
    · rw [hq q hqp, h.listed q y]
      constructor
      · intro hex
        obtain ⟨r, hr⟩ := hex
        exact ⟨r, drop_eq_some.mpr ⟨hr, hqp⟩⟩
      · intro hex
        obtain ⟨r, hr⟩ := hex
        exact ⟨r, (drop_eq_some.mp hr).1⟩
  case path_inj =>
    intro y y' q π hy hy'
    exact h.path_inj y y' q π (drop_eq_some.mp hy).1 (drop_eq_some.mp hy').1
  case room => exact h.room
  case frame => exact fun y hy hr => h.frame y (drop_ne_none hy) hr
  case frame_inj =>
    intro y y' hy hy' hr hr'
    exact h.frame_inj y y' (drop_ne_none hy) (drop_ne_none hy') hr hr'
  case status => exact fun y q π hy => h.status y q π (drop_eq_some.mp hy).1
  case loose => exact fun y q hy => h.loose y q (drop_eq_some.mp hy).1
  case dir =>
    intro y q hy
    obtain ⟨hy, hqp⟩ := drop_eq_some.mp hy
    rw [hq q hqp]
    exact h.dir y q hy
  case parent =>
    intro y q i π hy
    obtain ⟨hy, hqp⟩ := drop_eq_some.mp hy
    obtain ⟨hlen, hu, z, hz⟩ := h.parent y q i π hy
    exact ⟨hlen, hu, z, drop_eq_some.mpr ⟨hz, hqp⟩⟩
  case slot =>
    intro y q π i hy hπ hu
    obtain ⟨hy, hqp⟩ := drop_eq_some.mp hy
    rcases h.slot y q π i hy hπ hu with ⟨hor, hnone⟩ | ⟨z, hz, hf⟩
    · refine Or.inl ⟨?_, fun z hz => hnone z (drop_eq_some.mp hz).1⟩
      rcases hor with habs | ⟨hlen, h1, h2, z, π', hz, hshared⟩
      · exact Or.inl habs
      · exact Or.inr ⟨hlen, h1, h2, z, π', drop_eq_some.mpr ⟨hz, hqp⟩, hshared⟩
    · exact Or.inr ⟨z, drop_eq_some.mpr ⟨hz, hqp⟩, hf⟩
  case leaf =>
    intro y q π hy hπ
    obtain ⟨hpath, hpte⟩ := h.leaf y q π (drop_eq_some.mp hy).1 hπ
    exact ⟨hpath, fun z hz => hpte z (drop_eq_some.mp hz).1⟩

/-- A process that starts over has no pages. -/
theorem reset_sane (hs : Sane root own s) (p : Nat) :
    Sane root (drop own p) (setProc p ⟨true, 0, 0, maxPagetableNum, []⟩ s) := by
  have hp := setProc_self p ⟨true, 0, 0, maxPagetableNum, []⟩ s
  have hq : ∀ q, q ≠ p →
      (setProc p ⟨true, 0, 0, maxPagetableNum, []⟩ s).procs q = s.procs q :=
    fun q => setProc_of_ne _ s
  refine ⟨⟨reset_shape hs.shape p, fun q => ?_, ?_, hs.drawn.same rfl rfl⟩,
    fun y q hy => hs.settled y q (drop_eq_some.mp hy).1⟩
  · by_cases hqp : q = p
    · rw [hqp]
      refine ⟨?_, ?_, fun hex => ?_⟩
      · unfold count
        rw [hp]
        rfl
      · rw [hp]
        exact Nat.zero_le _
      · obtain ⟨y, hy, _⟩ := hex
        rw [hp] at hy
        cases hy
    · exact (hs.tally q).congr (by rw [hq q hqp]) (by rw [hq q hqp]) (by rw [hq q hqp])
        fun _ _ => Iff.rfl
  · obtain ⟨slot, hat, hinj⟩ := hs.stored
    exact ⟨slot, fun y hy hout => hat y (drop_ne_none hy) hout,
      fun y y' hy hy' => hinj y y' (drop_ne_none hy) (drop_ne_none hy')⟩

/-- The frame of `x` becomes the root table of `p`, a copy of the kernel's. -/
structure Roots (root : Nat → Pte) (p x : Nat) (s s' : State) : Prop where
  self : ∀ j, s'.mem (s.pages x).kva j = root j
  mem : ∀ a j, a ≠ (s.pages x).kva → s'.mem a j = s.mem a j
  pages : s'.pages = s.pages
  procs : ∀ q, s'.procs q = { s.procs q with
    pgdir := if q = p then (s.pages x).kva else (s.procs q).pgdir }
  pageId : s'.pageId = s.pageId
  kernMemCurr : s'.kernMemCurr = s.kernMemCurr
  sector : s'.sector = s.sector
  writes : s'.writes = s.writes

/-- A cleared page with the kernel's entries is a root table. -/
theorem sharePgtable_roots (hkernel : ∀ i, s.mem (pa2kva pgdirPa) i = root i)
    (hne : (s.pages x).kva ≠ pa2kva pgdirPa) :
    Roots root p x s (sharePgtable (s.pages x).kva (clearPgdir (s.pages x).kva
      (setProc p { s.procs p with pgdir := (s.pages x).kva } s))) := by
  refine ⟨fun j => ?_, fun a j ha => ?_, rfl, fun q => ?_, rfl, rfl, rfl, rfl⟩
  · simp [sharePgtable, clearPgdir, setContent, setProc, hne.symm, hkernel]
  · simp [sharePgtable, clearPgdir, setContent, setProc, ha]
  · by_cases hq : q = p
    · simp [sharePgtable, clearPgdir, setContent, setProc, hq]
    · simp [sharePgtable, clearPgdir, setContent, setProc, hq]

/-- A root table puts no page away. -/
theorem Roots.res (hr : Roots root p x s s') (y : Nat) : Res s' y ↔ Res s y := by
  unfold Res
  rw [hr.pages]

section RootTable

variable {y q : Nat}

/-- A page with a place is the new root, or belongs to another process. -/
theorem link_root_cases (honly : ∀ y r, own y = some (p, r) → y = x)
    (hy : Shape.link own x p [] y = some (q, some π)) :
    (y = x ∧ q = p ∧ π = []) ∨ (y ≠ x ∧ q ≠ p ∧ own y = some (q, some π)) := by
  by_cases hyx : y = x
  · rw [hyx, Shape.link_self] at hy
    cases hy
    exact Or.inl ⟨hyx, rfl, rfl⟩
  · rw [Shape.link_other _ _ _ hyx] at hy
    refine Or.inr ⟨hyx, fun hcon => hyx ?_, hy⟩
    rw [hcon] at hy
    exact honly y _ hy

/-- A page with an owner had one before. -/
theorem link_root_some (hxs : own x ≠ none) (hy : Shape.link own x p [] y ≠ none) :
    own y ≠ none := by
  by_cases hyx : y = x
  · rw [hyx]
    exact hxs
  · rwa [Shape.link_other _ _ _ hyx] at hy

/-- A page with a place keeps it. -/
theorem link_root_kept (hx : own x = some (p, none)) (hy : own y = some (q, some π)) :
    Shape.link own x p [] y = some (q, some π) := by
  have hyx : y ≠ x := by
    intro hcon
    rw [hcon, hx] at hy
    cases hy
  rw [Shape.link_other _ _ _ hyx, hy]

end RootTable

/-- The tables are in shape with the new root. -/
theorem Roots.shape (hr : Roots root p x s s') (h : Shape root own s) (hx : own x = some (p, none))
    (hst : (s.pages x).status = .unswapable) (honly : ∀ y r, own y = some (p, r) → y = x) :
    Shape root (Shape.link own x p []) s' := by
  have hxs : own x ≠ none := by
    rw [hx]
    simp
  have hloose := h.loose x p hx
  have hne_root := h.kva_ne_root hxs hloose.1
  constructor
  case kernel =>
    intro j
    rw [hr.mem _ j hne_root.symm]
    exact h.kernel j
  case fresh =>
    intro y hy
    rw [hr.pageId] at hy
    obtain ⟨h1, h2, h3⟩ := h.fresh y hy
    have hyx : y ≠ x := by
      intro hcon
      rw [hcon, hx] at h2
      cases h2
    rw [hr.pages, Shape.link_other _ _ _ hyx]
    exact ⟨h1, h2, h3⟩
  case nodup =>
    intro q
    rw [hr.procs]
    exact h.nodup q
  case listed =>
    intro q y
    rw [hr.procs]
    change y ∈ (s.procs q).pagehead ↔ _
    rw [h.listed q y]
    by_cases hyx : y = x
    · rw [hyx, Shape.link_self, hx]
      constructor
      · intro hex
        obtain ⟨r, hr⟩ := hex
        cases hr
        exact ⟨_, rfl⟩
      · intro hex
        obtain ⟨r, hr⟩ := hex
        cases hr
        exact ⟨_, rfl⟩
    · rw [Shape.link_other _ _ _ hyx]
  case path_inj =>
    intro y y' q π hy hy'
    rcases link_root_cases honly hy with ⟨hyx, hqp, _⟩ | ⟨_, hqp, hy⟩
    · rcases link_root_cases honly hy' with ⟨hyx', _, _⟩ | ⟨_, hqp', _⟩
      · rw [hyx, hyx']
      · exact absurd hqp hqp'
    · rcases link_root_cases honly hy' with ⟨_, hqp', _⟩ | ⟨_, _, hy'⟩
      · exact absurd hqp' hqp
      · exact h.path_inj y y' q π hy hy'
  case room =>
    rw [hr.pageId, hr.kernMemCurr]
    exact h.room
  case frame =>
    intro y hy hry
    unfold Given
    rw [hr.pages, hr.kernMemCurr]
    exact h.frame y (link_root_some hxs hy) ((hr.res y).mp hry)
  case frame_inj =>
    intro y y' hy hy' hry hry'
    rw [hr.pages]
    exact h.frame_inj y y' (link_root_some hxs hy) (link_root_some hxs hy') ((hr.res y).mp hry)
      ((hr.res y').mp hry')
  case status =>
    intro y q π hy
    rw [hr.pages, hr.res]
    rcases link_root_cases honly hy with ⟨hyx, _, _⟩ | ⟨_, _, hy⟩
    · rw [hyx]
      exact ⟨fun _ => ⟨hst, hloose.2.2⟩, fun hcon => absurd hloose.1 hcon⟩
    · exact h.status y q π hy
  case loose =>
    intro y q hy
    have hyx : y ≠ x := by
      intro hcon
      rw [hcon, Shape.link_self] at hy
      cases hy
    rw [Shape.link_other _ _ _ hyx] at hy
    rw [hr.pages, hr.res]
    exact h.loose y q hy
  case dir =>
    intro y q hy
    rw [hr.procs, hr.pages]
    rcases link_root_cases honly hy with ⟨hyx, hqp, _⟩ | ⟨_, hqp, hy⟩
    · rw [hyx, if_pos hqp]
    · rw [if_neg hqp]
      exact h.dir y q hy
  case parent =>
    intro y q i π hy
    rcases link_root_cases honly hy with ⟨_, _, hcon⟩ | ⟨_, _, hy⟩
    · cases hcon
    · obtain ⟨hlen, hu, z, hz⟩ := h.parent y q i π hy
      exact ⟨hlen, hu, z, link_root_kept hx hz⟩
  case slot =>
    intro y q π i hy hπ hu
    rw [hr.pages]
    rcases link_root_cases honly hy with ⟨hyx, hqp, hnil⟩ | ⟨_, hqp, hy⟩
    · left
      rw [hyx, hr.self]
      refine ⟨Or.inl ⟨hu hnil, fun hlen => ?_⟩, fun z hz => ?_⟩
      · rw [hnil] at hlen
        cases hlen
      · rcases link_root_cases honly hz with ⟨_, _, hcon⟩ | ⟨_, hqp', _⟩
        · cases hcon
        · exact absurd hqp hqp'
    · have hne : (s.pages y).kva ≠ (s.pages x).kva := by
        refine h.kva_ne hy hπ hxs hloose.1 fun hcon => ?_
        rw [hcon, hx] at hy
        cases hy
      rcases h.slot y q π i hy hπ hu with ⟨hor, hnone⟩ | ⟨z, hz, hf⟩
      · left
        rw [hr.mem _ i hne]
        refine ⟨?_, fun z hz => ?_⟩
        · rcases hor with habs | ⟨hlen, h1, h2, z, π', hz, hshared⟩
          · exact Or.inl habs
          · refine Or.inr ⟨hlen, h1, h2, z, π', link_root_kept hx hz, ?_⟩
            rw [hr.pages]
            exact hshared
        · rcases link_root_cases honly hz with ⟨_, hqp', _⟩ | ⟨_, _, hz⟩
          · exact absurd hqp' hqp
          · exact hnone z hz
      · right
        refine ⟨z, link_root_kept hx hz, ?_⟩
        unfold Filled Res at hf ⊢
        rw [hr.mem _ i hne, hr.pages]
        exact hf
  case leaf =>
    intro y q π hy hπ
    rw [hr.pages]
    rcases link_root_cases honly hy with ⟨_, _, hnil⟩ | ⟨_, _, hy⟩
    · rw [hnil] at hπ
      cases hπ
    · obtain ⟨hpath, hpte⟩ := h.leaf y q π hy hπ
      refine ⟨hpath, fun z hz => ?_⟩
      rcases link_root_cases honly hz with ⟨_, _, hnil⟩ | ⟨_, _, hz⟩
      · have hlen := congrArg List.length hnil
        rw [List.length_tail, hπ] at hlen
        cases hlen
      · exact hpte z hz

/-- The invariant holds with the new root. -/
theorem Roots.sane (hr : Roots root p x s s') (hn : Near root own s) (hset : Settled own s)
    (hx : own x = some (p, none)) (hst : (s.pages x).status = .unswapable)
    (honly : ∀ y r, own y = some (p, r) → y = x) : Sane root (Shape.link own x p []) s' := by
  have h := hn.shape
  have hxs : own x ≠ none := by
    rw [hx]
    simp
  have hloose := h.loose x p hx
  refine ⟨⟨hr.shape h hx hst honly, fun q => ?_, ?_, hn.drawn.same hr.writes hr.sector⟩,
    fun y q hy => ?_⟩
  · exact (hn.tally q).congr (by rw [hr.procs]) (by rw [hr.procs]) (by rw [hr.procs])
      fun y _ => hr.res y
  · obtain ⟨slot, hat, hinj⟩ := hn.stored
    refine ⟨slot, fun y hy hout => ?_, fun y y' hy hy' hout hout' => ?_⟩
    · have hout' : ¬ Res s y := fun hcon => hout ((hr.res y).mpr hcon)
      have hy' := link_root_some hxs hy
      obtain ⟨q, j, π, tab, hown, hπ, htab, hpte, _, _, _⟩ := h.out_entry hy' hout'
      obtain ⟨hlt, t, j', hpte', hpfn⟩ := hat y hy' hout'
      rw [hpte] at hpte'
      cases hpte'
      refine ⟨by rw [hr.writes]; exact hlt, (s.pages tab).kva, j, by rw [hr.pages]; exact hpte, ?_⟩
      rw [hr.mem]
      · exact hpfn
      · refine h.kva_ne htab (by omega) hxs hloose.1 fun hcon => ?_
        rw [hcon, hx] at htab
        cases htab
    · exact hinj y y' (link_root_some hxs hy) (link_root_some hxs hy')
        (fun hcon => hout ((hr.res y).mpr hcon)) fun hcon => hout' ((hr.res y').mpr hcon)
  · have hyx : y ≠ x := by
      intro hcon
      rw [hcon, Shape.link_self] at hy
      cases hy
    rw [Shape.link_other _ _ _ hyx] at hy
    rw [hr.pages]
    exact hset y q hy

/-- None of the process's pages can be evicted. -/
def Pinned (own : Owners) (s : State) (p : Nat) : Prop :=
  ∀ x r, own x = some (p, r) → (s.pages x).status = .unswapable

/-- Pages that are added are pinned as well. -/
theorem Pinned.grows (h : Pinned own s p) (hg : Grows .unswapable own own' s s') :
    Pinned own' s' p := by
  intro x r hx
  by_cases hox : own x = none
  · rcases hg.added x hox (by rw [hx]; simp) with h1 | h1
    · exact h1
    · exact h1
  · obtain ⟨r', hr'⟩ := Option.ne_none_iff_exists'.mp hox
    have hkept := hg.kept x r' hr'
    rw [hx] at hkept
    cases hkept
    have hst := h x r hr'
    rw [hg.pages x hox (by rw [hst]; decide)]
    exact hst

/-- A pinned page is in memory. -/
theorem Pinned.res (h : Pinned own s p) {r : Option (List Nat)} (hx : own x = some (p, r)) :
    Res s x := by
  unfold Res
  rw [h x r hx]
  exact fun hcon => by cases hcon

/-- What is shared can be evicted. -/
theorem Pinned.not_shared (h : Pinned own s p) (e : Pte) : ¬ Shared own s p e := by
  rintro ⟨-, -, k, π, hk, -, hst, -⟩
  rw [h k _ hk] at hst
  cases hst

/-- One more page of a new process, with its content. -/
theorem pinned_page (hs : Sane root own s) {d : Nat} (hd : own d = some (p, some []))
    (hu : User root (vpn2 va)) (hpin : Pinned own s p) (c : Nat → Pte) :
    Holds AnyStop (fun r => ∃ own', Sane root own' (setContent r.1 c r.2) ∧
        Grows .unswapable own own' s (setContent r.1 c r.2) ∧
        Carries (fun q => q = p) own s (setContent r.1 c r.2))
      (allocPageHelper va p .unswapable s) := by
  refine (allocPageHelper_mapped hs hd hu (Or.inr rfl) (fun k hk => hpin.res hk)
    fun _ _ => hpin.not_shared _).mono fun r hM => ?_
  obtain ⟨own', x, hM⟩ := hM
  have hleaf : ∀ π, some (pathOf va) = some π → π.length = 3 := by
    intro π hπ
    cases hπ
    rfl
  have hw : Writes (r.2.pages x).kva r.2 (setContent r.1 c r.2) := by
    rw [hM.kva]
    exact writes_setContent _ _ _
  refine ⟨own', hM.sane.write hM.page hM.res hw,
    ⟨hM.grows.kept, hM.grows.pages, hM.grows.added, hM.grows.alone, hM.grows.procs⟩, ?_⟩
  have hc : Carries (fun q => q = p) own' r.2 (setContent r.1 c r.2) := by
    refine ⟨le_rfl, fun _ k q π e c' a hk hπ hq hkept => ?_⟩
    refine hM.sane.shape.kept_of_mem hM.page hM.res hleaf hw.mem rfl rfl (fun hcon => hq ?_) hk hπ
      hkept
    rw [hcon, hM.page] at hk
    cases hk
    rfl
  exact (hM.carries.mono fun _ hq => hq.elim).trans hc fun k q π hk _ => hM.grows.kept k _ hk

/-- Loading an image keeps the invariant and evicts no page of the process, by induction on its
pages. -/
theorem loadTaskImg_sane (image : List (Nat × (Nat → Pte))) :
    ∀ {own : Owners} {s : State} {d : Nat}, Sane root own s → own d = some (p, some []) →
      (∀ c ∈ image, User root (vpn2 c.1)) → Pinned own s p →
      Holds AnyStop (fun s' => ∃ own', Sane root own' s' ∧ Grows .unswapable own own' s s' ∧
        Carries (fun q => q = p) own s s') (loadTaskImg p image s) := by
  induction image with
  | nil =>
      intro own s d hs _ _ _
      exact ⟨own, hs, .refl _ _ _, .refl _ _ _⟩
  | cons page rest ih =>
      intro own s d hs hd hu hpin
      unfold loadTaskImg
      refine Holds.bind (pinned_page hs hd (hu page List.mem_cons_self) hpin page.2) fun r hr => ?_
      obtain ⟨own₁, hs₁, hg₁, hc₁⟩ := hr
      refine (ih hs₁ (hg₁.kept d _ hd) (fun c hc => hu c (List.mem_cons_of_mem _ hc))
        (hpin.grows hg₁)).mono fun s' h => ?_
      obtain ⟨own₂, hs₂, hg₂, hc₂⟩ := h
      exact ⟨own₂, hs₂, hg₁.trans hg₂ (Or.inl rfl), hc₁.trans hc₂ fun k q π hk _ => hg₁.kept k _ hk⟩

/-- The frame of the kernel stack, with its content. -/
theorem stack_page (hs : Sane root own s) (p : Nat) (c : Nat → Pte) :
    Holds AnyStop (fun r =>
        Sane root (hold own s.pageId p) (setContent (r.2.pages r.1).kva c r.2) ∧
        Grows .unswapable own (hold own s.pageId p) s (setContent (r.2.pages r.1).kva c r.2) ∧
        Carries (fun q => q = p) own s (setContent (r.2.pages r.1).kva c r.2))
      (allocPagetable p .unswapable s) := by
  refine (allocPagetable_alloc hs.toNear hs.settled (Or.inr rfl)).mono fun r hB => ?_
  obtain ⟨y, s₁⟩ := r
  have hyid : y = s.pageId := hB.id
  have hy : hold own s.pageId p y = some (p, none) := by
    rw [hyid]
    exact hold_self _ _ _
  have hs₁ : Sane root (hold own s.pageId p) s₁ := by
    refine ⟨hB.near, fun z q hz => ?_⟩
    by_cases hzy : z = s.pageId
    · rw [hzy, hB.status]
      decide
    · exact hB.settled z q hz hzy
  have hres : Res s₁ y := (hs₁.shape.loose y p hy).1
  have hkept : ∀ z r, own z = some r → hold own s.pageId p z = some r := by
    intro z r hz
    rw [hold_other _ _ (Takes.hold_some hs.shape z hz), hz]
  refine ⟨?_, ⟨hkept, hB.pages, fun z hz hz' => ?_, hB.alone, hB.procs⟩, ?_⟩
  · refine hs₁.content hy hres (fun π hπ => ?_) (writes_setContent _ _ _)
    cases hπ
  · left
    by_cases hzy : z = s.pageId
    · rw [hzy]
      exact hB.status
    · rw [hold_other _ _ hzy] at hz'
      exact absurd hz hz'
  · have hc : Carries (fun q => q = p) (hold own s.pageId p) s₁
        (setContent (s₁.pages y).kva c s₁) := by
      refine ⟨le_rfl, fun _ k q π e c' a hk hπ _ hkept => ?_⟩
      refine hs₁.shape.kept_of_mem hy hres (fun _ hcon => by cases hcon)
        (writes_setContent _ _ _).mem rfl rfl (fun hcon => ?_) hk hπ hkept
      rw [hcon, hy] at hk
      cases hk
    exact (hB.carries.mono fun _ hq => hq.elim).trans hc fun k q π hk _ => hkept k _ hk

/-- A process that has its root table and nothing else; what the others have is left alone. -/
structure Started (root : Nat → Pte) (own : Owners) (p : Nat) (s : State) (own' : Owners) (x : Nat)
    (s' : State) : Prop where
  sane : Sane root own' s'
  dir : own' x = some (p, some [])
  pinned : Pinned own' s' p
  live : ∀ q, q ≠ p → (s'.procs q).live = (s.procs q).live
  kept : ∀ k q r, own k = some (q, r) → q ≠ p → own' k = some (q, r)
  pages : ∀ k q r, own k = some (q, r) → q ≠ p → (s.pages k).status = .notInMem →
    s'.pages k = s.pages k
  alone : ∀ k, (s'.pages k).status = .copyOnWrite → (s.pages k).status = .copyOnWrite
  carries : Carries (fun q => q = p) own s s'

/-- Every process still has its root when one starts. -/
theorem Started.rooted {own' : Owners} {s' : State} (h : Started root own p s own' x s')
    (hr : Rooted own s) : Rooted own' s' := by
  intro q hq
  by_cases hqp : q = p
  · rw [hqp]
    exact ⟨x, h.dir⟩
  · rw [h.live q hqp] at hq
    obtain ⟨d, hd⟩ := hr q hq
    exact ⟨d, h.kept d q _ hd hqp⟩

/-- The first part of `do_exec` leaves a process with its root table only. -/
theorem doExec_started (hs : Sane root own s) (p : Nat) :
    Holds AnyStop (fun r => Started root own p s
        (Shape.link (hold (drop own p) s.pageId p) s.pageId p []) s.pageId
        (sharePgtable (r.2.pages r.1).kva (clearPgdir (r.2.pages r.1).kva
          (setProc p { r.2.procs p with pgdir := (r.2.pages r.1).kva } r.2))))
      (allocPagetable p .unswapable (setProc p ⟨true, 0, 0, maxPagetableNum, []⟩ s)) := by
  have hs₀ := reset_sane hs p
  obtain ⟨s₀, hs₀'⟩ : ∃ s₀, s₀ = setProc p ⟨true, 0, 0, maxPagetableNum, []⟩ s := ⟨_, rfl⟩
  have hprocs₀ : ∀ q, q ≠ p → s₀.procs q = s.procs q := by
    intro q hq
    rw [hs₀', setProc_of_ne _ s hq]
  have hsame₀ : s₀.pages = s.pages := by
    rw [hs₀']
    rfl
  have hc₀ : Carries (fun q => q = p) own s s₀ := by
    rw [hs₀']
    exact ⟨le_rfl, fun _ _ _ _ _ _ _ _ _ _ hkept => hkept⟩
  rw [← hs₀'] at hs₀ ⊢
  refine (allocPagetable_alloc hs₀.toNear hs₀.settled (Or.inr rfl)).mono fun r hA => ?_
  obtain ⟨x, s₁⟩ := r
  have hxid : x = s₀.pageId := hA.id
  have hA' := hA.near
  rw [← hxid] at hA'
  have hx : hold (drop own p) x p x = some (p, none) := hold_self _ _ _
  have honly : ∀ y r, hold (drop own p) x p y = some (p, r) → y = x := by
    intro y r hy
    by_contra hne
    rw [hold_other _ _ hne] at hy
    exact (drop_eq_some.mp hy).2 rfl
  have hset : Settled (hold (drop own p) x p) s₁ := by
    intro y q hy
    by_cases hyx : y = x
    · rw [hyx, hxid, hA.status]
      decide
    · rw [hxid] at hy hyx
      exact hA.settled y q hy hyx
  have hst : (s₁.pages x).status = .unswapable := by
    rw [hxid]
    exact hA.status
  have hloose := hA'.shape.loose x p hx
  have hne_root := hA'.shape.kva_ne_root (by rw [hx]; simp) hloose.1
  have hroots : Roots root p x s₁ _ := sharePgtable_roots hA'.shape.kernel hne_root
  have hs₂ := hroots.sane hA' hset hx hst honly
  obtain ⟨s₂, hs₂'⟩ : ∃ s₂, s₂ = sharePgtable (s₁.pages x).kva (clearPgdir (s₁.pages x).kva
      (setProc p { s₁.procs p with pgdir := (s₁.pages x).kva } s₁)) := ⟨_, rfl⟩
  simp only
  rw [← hs₂'] at hs₂ hroots ⊢
  -- what the other processes have is left alone
  have hdropped : ∀ k q r, own k = some (q, r) → q ≠ p → drop own p k = some (q, r) :=
    fun k q r hk hq => drop_eq_some.mpr ⟨hk, hq⟩
  have hne : ∀ k q r, own k = some (q, r) → q ≠ p → k ≠ x := by
    intro k q r hk hq
    rw [hxid]
    exact Takes.hold_some hs₀.shape k (hdropped k q r hk hq)
  have hkeep : ∀ k q r, own k = some (q, r) → q ≠ p → hold (drop own p) x p k = some (q, r) := by
    intro k q r hk hq
    rw [hold_other _ _ (hne k q r hk hq), hdropped k q r hk hq]
  have hc₂ : Carries (fun q => q = p) (hold (drop own p) x p) s₁ s₂ := by
    refine ⟨by rw [hroots.writes], fun _ k q π e c a hk hπ _ hkept => ?_⟩
    refine hA'.shape.kept_of_mem hx hloose.1 (fun _ hcon => by cases hcon) hroots.mem hroots.pages
      (by rw [hs₂']; rfl) (fun hcon => ?_) hk hπ hkept
    rw [hcon, hx] at hk
    cases hk
  have hxs : s.pageId = x := by
    rw [hxid, hs₀']
    rfl
  rw [hxs]
  refine ⟨hs₂, Shape.link_self _ _ _ _, fun y r hy => ?_,
    fun q hq => ?_, fun k q r hk hq => ?_, fun k q r hk hq hout => ?_, fun k hk => ?_, ?_⟩
  · by_cases hyx : y = x
    · rw [hyx, hroots.pages]
      exact hst
    · rw [Shape.link_other _ _ _ hyx] at hy
      exact absurd (honly y r hy) hyx
  · rw [hroots.procs, (hA.procs q).2, hprocs₀ q hq]
  · rw [Shape.link_other _ _ _ (hne k q r hk hq), hkeep k q r hk hq]
  · rw [hroots.pages, hA.pages k (by rw [hdropped k q r hk hq]; simp)
      (by rw [hsame₀, hout]; decide), hsame₀]
  · rw [hroots.pages] at hk
    rw [← hsame₀]
    exact hA.alone k hk
  · have hc₁ : Carries (fun q => q = p) own s s₁ :=
      hc₀.trans (hA.carries.mono fun _ hq => hq.elim) fun k q π hk hq => hdropped k q _ hk hq
    exact hc₁.trans hc₂ fun k q π hk hq => hkeep k q _ hk hq

/-- `do_exec` keeps the invariant; only the process it replaces loses its pages. -/
theorem doExec_after (hs : Sane root own s) (hr : Rooted own s) (p : Nat) (stack args : Nat → Pte)
    {image : List (Nat × (Nat → Pte))} (hstack : User root (vpn2 (userStackAddr - 4096)))
    (himage : ∀ c ∈ image, User root (vpn2 c.1)) :
    Holds AnyStop (fun s' => ∃ own', After root (fun q => q = p) own s own' s')
      (doExec p stack args image s) := by
  unfold doExec
  -- the root table
  refine Holds.bind (doExec_started hs p) fun r hA => ?_
  -- the kernel stack
  refine Holds.bind (stack_page hA.sane p stack) fun r₂ hB => ?_
  obtain ⟨hs₂, hg₂, hc₂⟩ := hB
  -- the user stack and the image
  refine Holds.bind (pinned_page hs₂ (hg₂.kept _ _ hA.dir) hstack (hA.pinned.grows hg₂) args)
    fun r₃ hC => ?_
  obtain ⟨own₃, hs₃, hg₃, hc₃⟩ := hC
  have hg₃' := hg₂.trans hg₃ (Or.inl rfl)
  refine (loadTaskImg_sane image hs₃ (hg₃'.kept _ _ hA.dir) himage (hA.pinned.grows hg₃')).mono
    fun s' h => ?_
  obtain ⟨own₄, hs₄, hg₄, hc₄⟩ := h
  have hg := hg₃'.trans hg₄ (Or.inl rfl)
  have hc : Carries (fun q => q = p) own s s' :=
    ((hA.carries.trans hc₂ fun k q π hk hq => hA.kept k q _ hk hq).trans hc₃
      fun k q π hk hq => hg₂.kept k _ (hA.kept k q _ hk hq)).trans hc₄
      fun k q π hk hq => hg₃'.kept k _ (hA.kept k q _ hk hq)
  refine ⟨own₄, hs₄, (hA.rooted hr).grows hg, fun k q r hk hq => hg.kept k _ (hA.kept k q r hk hq),
    fun k hk => hA.alone k (hg.alone k hk), hc.more,
    fun hlen k q π e c a hk hπ hq _ => hc.kept hlen k q π e c a hk hπ hq,
    fun k q π hk hq hout hres => ?_⟩
  -- a page that is out stays out
  have hst : (s.pages k).status = .notInMem := not_not.mp hout
  have h1 := hA.pages k q _ hk hq hst
  have h2 := hg.pages k (by rw [hA.kept k q _ hk hq]; simp) (by rw [h1, hst]; decide)
  unfold Res at hres
  rw [h2, h1] at hres
  exact absurd hst hres

/-! ## Runs -/

/-- User programs and images keep to addresses the kernel does not use, and there are no
snapshots. -/
def UserEvent (root : Nat → Pte) : Event → Prop
  | .exec _ _ _ image =>
    User root (vpn2 (userStackAddr - 4096)) ∧ ∀ c ∈ image, User root (vpn2 c.1)
  | .load _ va | .store _ va | .put _ va _ => User root (vpn2 va)
  | .snapshot _ _ => False

instance (root : Nat → Pte) : ∀ e, Decidable (UserEvent root e)
  | .exec _ _ _ image => (inferInstance :
      Decidable (User root (vpn2 (userStackAddr - 4096)) ∧ ∀ c ∈ image, User root (vpn2 c.1)))
  | .load _ va => (inferInstance : Decidable (User root (vpn2 va)))
  | .store _ va => (inferInstance : Decidable (User root (vpn2 va)))
  | .put _ va _ => (inferInstance : Decidable (User root (vpn2 va)))
  | .snapshot _ _ => instDecidableFalse

/-- The process an event replaces. -/
def Event.replaces : Event → Nat → Prop
  | .exec p _ _ _, q => q = p
  | .load _ _, _ | .store _ _, _ | .put _ _ _, _ | .snapshot _ _, _ => False

/-- Every event of the user keeps the invariant. -/
theorem handle_after {e : Event} (hs : Sane root own s) (hr : Rooted own s) (hun : Unshared s)
    (he : UserEvent root e) :
    Holds AnyStop (fun s' => ∃ own', After root e.replaces own s own' s') (handle e s) := by
  cases e with
  | exec p stack args image => exact doExec_after hs hr p stack args he.1 he.2
  | load p va =>
      simp only [handle]
      split_ifs with hlive
      · exact handleLoadPageFault_after hs hr hlive he
      · exact ⟨own, .refl hs hr⟩
  | store p va =>
      simp only [handle]
      split_ifs with hlive
      · exact handleStorePageFault_after hs hr hlive he (Or.inl hun)
      · exact ⟨own, .refl hs hr⟩
  | put p va word =>
      simp only [handle]
      split_ifs with hlive
      · exact put_after hs hr hlive he word
      · exact ⟨own, .refl hs hr⟩
  | snapshot p va => exact he.elim

/-- No event makes a page copy on write. -/
theorem After.unshared {gone : Nat → Prop} (h : After root gone own s own' s') (hun : Unshared s) :
    Unshared s' := fun x hx => hun x (h.alone x hx)

/-- The step lemma of the system. -/
theorem handle_good {e : Event} (hg : Good root s) (hun : Unshared s) (he : UserEvent root e) :
    Holds AnyStop (fun s' => Good root s' ∧ Unshared s') (handle e s) := by
  obtain ⟨own, hs, hr⟩ := hg
  refine (handle_after hs hr hun he).mono fun s' h => ?_
  obtain ⟨own', hafter⟩ := h
  exact ⟨hafter.good, hafter.unshared hun⟩

/-- The state after boot is good. -/
theorem Booted.good (h : Booted s) : Good (s.mem (pa2kva pgdirPa)) s := by
  refine ⟨fun _ => none, ⟨⟨?_, fun p => ?_, ?_, h.drawn⟩, fun _ _ hx => by cases hx⟩, fun p hp => ?_⟩
  · constructor
    case kernel => exact fun _ => rfl
    case fresh =>
      intro id _
      rw [h.pages]
      exact ⟨rfl, rfl, rfl⟩
    case nodup =>
      intro p
      rw [h.procs]
      exact List.nodup_nil
    case listed =>
      intro p id
      rw [h.procs]
      refine ⟨fun hmem => (by cases hmem), fun hex => ?_⟩
      obtain ⟨r, hr⟩ := hex
      cases hr
    case path_inj => exact fun _ _ _ _ hx => by cases hx
    case room =>
      rw [h.kernMemCurr, h.pageId]
      decide
    case frame => exact fun _ hx => absurd rfl hx
    case frame_inj => exact fun _ _ hx => absurd rfl hx
    case status => exact fun _ _ _ hx => by cases hx
    case loose => exact fun _ _ hx => by cases hx
    case dir => exact fun _ _ hx => by cases hx
    case parent => exact fun _ _ _ _ hx => by cases hx
    case slot => exact fun _ _ _ _ hx => by cases hx
    case leaf => exact fun _ _ _ hx => by cases hx
  · refine ⟨?_, ?_, fun hex => ?_⟩
    · unfold count
      rw [h.procs]
      rfl
    · rw [h.procs]
    · obtain ⟨id, hid, _⟩ := hex
      rw [h.procs] at hid
      cases hid
  · exact ⟨fun _ => 0, fun _ hx => absurd rfl hx, fun _ _ hx => absurd rfl hx⟩
  · rw [h.procs] at hp
    cases hp

/-- After boot no page is copied on write. -/
theorem Booted.unshared (h : Booted s) : Unshared s := by
  intro x
  rw [h.pages]
  exact fun hcon => by cases hcon

/-- Every run from boot keeps the invariant. -/
theorem run_good {s₀ : State} {es : List Event} (hboot : Booted s₀)
    (hes : ∀ e ∈ es, UserEvent (s₀.mem (pa2kva pgdirPa)) e) (hrun : run handle es s₀ = .ok s) :
    Good (s₀.mem (pa2kva pgdirPa)) s ∧ Unshared s := by
  have hall : ∀ (es : List Event) (s t : State), (∀ e ∈ es, UserEvent (s₀.mem (pa2kva pgdirPa)) e) →
      Good (s₀.mem (pa2kva pgdirPa)) s → Unshared s → run handle es s = .ok t →
      Good (s₀.mem (pa2kva pgdirPa)) t ∧ Unshared t := by
    intro es
    induction es with
    | nil =>
        intro s t _ hg hun hrun
        cases hrun
        exact ⟨hg, hun⟩
    | cons e es ih =>
        intro s t hes hg hun hrun
        obtain ⟨s₁, hs₁, hrest⟩ := run_cons hrun
        obtain ⟨hg₁, hun₁⟩ := (handle_good hg hun (hes e List.mem_cons_self)).of_ok hs₁
        exact ih s₁ t (fun e' he' => hes e' (List.mem_cons_of_mem _ he')) hg₁ hun₁ hrest
  exact hall es s₀ s hes hboot.good hboot.unshared hrun

end Mm
