import OslabRiscv.Mm.Frames

/-!
# Sharing

Steps that move no page: bits of entries other than those the invariant reads are set and
cleared, a page becomes one that is shared, and entries for shared pages are added.
-/

namespace Mm

open Outcome

variable {root : Nat → Pte} {own : Owners} {s s' : State} {p id k x t i va : Nat} {π : List Nat}

/-- The two entries differ in bits that the kernel does not walk by. -/
def Like (e e' : Pte) : Prop :=
  e'.pfn = e.pfn ∧ e'.has present = e.has present ∧ e'.has inSd = e.has inSd

theorem Like.refl (e : Pte) : Like e e := ⟨rfl, rfl, rfl⟩

/-- Entries that are alike lead to the same page. -/
theorem Like.pageOf {e e' : Pte} (h : Like e e') : pageOf e' = pageOf e := by
  unfold Mm.pageOf getPa getPfn
  rw [h.1]

/-- Entries with the same page and the same walk bits are alike. -/
theorem like_of_attr {e e' : Pte} (hpfn : e'.pfn = e.pfn)
    (hp : e'.attr &&& present = e.attr &&& present) (hsd : e'.attr &&& inSd = e.attr &&& inSd) :
    Like e e' := by
  refine ⟨hpfn, ?_, ?_⟩
  · unfold Pte.has
    rw [hp]
  · unfold Pte.has
    rw [hsd]

/-- The access bit is not walked by. -/
theorem like_accessed (e : Pte) : Like e (setAttribute accessed e) := by
  refine like_of_attr rfl ?_ ?_
  · exact (show ∀ a : BitVec 10, (a ||| accessed) &&& present = a &&& present by decide +kernel) _
  · exact (show ∀ a : BitVec 10, (a ||| accessed) &&& inSd = a &&& inSd by decide +kernel) _

/-- Neither is the dirty bit. -/
theorem like_dirty (e : Pte) : Like e (setAttribute (accessed ||| dirty) e) := by
  refine like_of_attr rfl ?_ ?_
  · exact (show ∀ a : BitVec 10, (a ||| (accessed ||| dirty)) &&& present = a &&& present by
      decide +kernel) _
  · exact (show ∀ a : BitVec 10, (a ||| (accessed ||| dirty)) &&& inSd = a &&& inSd by
      decide +kernel) _

/-- Neither is the write bit. -/
theorem like_write (e : Pte) : Like e (cleanAttribute write e) := by
  refine like_of_attr rfl ?_ ?_
  · exact (show ∀ a : BitVec 10, (a ^^^ write) &&& present = a &&& present by decide +kernel) _
  · exact (show ∀ a : BitVec 10, (a ^^^ write) &&& inSd = a &&& inSd by decide +kernel) _

/-- No page moves.  An entry may become like itself, or one more for a shared page if it
was empty; a page in memory may become shared. -/
structure Alters (own : Owners) (s s' : State) : Prop where
  page : ∀ x, (s'.pages x).kva = (s.pages x).kva ∧ (s'.pages x).uva = (s.pages x).uva ∧
    (s'.pages x).pte = (s.pages x).pte
  status : ∀ x, (s'.pages x).status = (s.pages x).status ∨
    ((s'.pages x).status = .copyOnWrite ∧ Res s x ∧ ∃ p π, own x = some (p, some π) ∧ π.length = 3)
  entry : ∀ id p π j, own id = some (p, some π) → π.length ≤ 2 →
    Like (s.mem (s.pages id).kva j) (s'.mem (s.pages id).kva j) ∨
      (π.length = 2 ∧ (s.mem (s.pages id).kva j).has present = false ∧
        (s.mem (s.pages id).kva j).has inSd = false ∧
        Shared own s' p (s'.mem (s.pages id).kva j))
  kernel : ∀ j, s'.mem (pa2kva pgdirPa) j = s.mem (pa2kva pgdirPa) j
  pageId : s'.pageId = s.pageId
  kernMemCurr : s'.kernMemCurr = s.kernMemCurr
  procs : s'.procs = s.procs
  sector : s'.sector = s.sector
  writes : s'.writes = s.writes

namespace Alters

/-- The same pages are in memory. -/
theorem res (ha : Alters own s s') (x : Nat) : Res s' x ↔ Res s x := by
  rcases ha.status x with hst | ⟨hst, hr, _⟩
  · unfold Res
    rw [hst]
  · refine ⟨fun _ => hr, fun _ => ?_⟩
    unfold Res
    rw [hst]
    exact fun hcon => by cases hcon

/-- A page that is copied on write stays so. -/
theorem status_cow (ha : Alters own s s') (h : (s.pages x).status = .copyOnWrite) :
    (s'.pages x).status = .copyOnWrite := by
  rcases ha.status x with hst | ⟨hst, _⟩
  · rw [hst, h]
  · exact hst

/-- Descriptors that are no page of a process keep their status. -/
theorem status_eq (ha : Alters own s s') (h : ∀ p π, own x = some (p, some π) → π.length ≠ 3) :
    (s'.pages x).status = (s.pages x).status := by
  rcases ha.status x with hst | ⟨_, _, p, π, hx, hπ⟩
  · exact hst
  · exact absurd hπ (h p π hx)

/-- An entry that points to a page does so afterwards, and only empty ones are used. -/
theorem slot (ha : Alters own s s') (h : Shape root own s) (hid : own id = some (p, some π))
    (hπ : π.length ≤ 2) (hu : π = [] → User root i) : Slot own s' p (s'.pages id).kva i π := by
  rw [(ha.page id).1]
  have hs := h.slot id p π i hid hπ hu
  rcases ha.entry id p π i hid hπ with hlike | ⟨hlen, hp, hsd, hshared⟩
  · have hp := hlike.2.1
    have hsd := hlike.2.2
    rcases hs with ⟨hor, hnone⟩ | ⟨k, hk, hf⟩
    · refine Or.inl ⟨?_, hnone⟩
      rcases hor with ⟨h1, h2⟩ | ⟨hlen, h1, h2, k, π', hk, hπ', hst, hpage⟩
      · refine Or.inl ⟨by rw [hp]; exact h1, fun hlen => ?_⟩
        rw [hsd]
        exact h2 hlen
      · refine Or.inr ⟨hlen, by rw [hp]; exact h1, by rw [hsd]; exact h2, k, π', hk, hπ',
          ha.status_cow hst, ?_⟩
        rw [hlike.pageOf, (ha.page k).1]
        exact hpage
    · refine Or.inr ⟨k, hk, ?_⟩
      rcases hf with ⟨hres, h1, hpage, h2⟩ | ⟨hout, h1, h2⟩
      · refine Or.inl ⟨(ha.res k).mpr hres, by rw [hp]; exact h1, ?_, fun hlen => ?_⟩
        · rw [hlike.pageOf, (ha.page k).1]
          exact hpage
        · rw [hsd]
          exact h2 hlen
      · exact Or.inr ⟨fun hcon => hout ((ha.res k).mp hcon), by rw [hp]; exact h1,
          by rw [hsd]; exact h2⟩
  · rcases hs with ⟨_, hnone⟩ | ⟨k, _, hf⟩
    · exact Or.inl ⟨Or.inr ⟨hlen, hshared⟩, hnone⟩
    · rcases hf with ⟨_, h1, _⟩ | ⟨_, _, h2⟩
      · rw [hp] at h1
        cases h1
      · rw [hsd] at h2
        cases h2

/-- The tables stay in shape. -/
theorem shape (ha : Alters own s s') (h : Shape root own s) : Shape root own s' := by
  constructor
  case kernel =>
    intro j
    rw [ha.kernel]
    exact h.kernel j
  case fresh =>
    intro x hx
    rw [ha.pageId] at hx
    obtain ⟨hst, hown, hpte⟩ := h.fresh x hx
    refine ⟨?_, hown, by rw [(ha.page x).2.2]; exact hpte⟩
    rw [ha.status_eq fun p π hx => by rw [hown] at hx; cases hx]
    exact hst
  case nodup =>
    rw [ha.procs]
    exact h.nodup
  case listed =>
    rw [ha.procs]
    exact h.listed
  case path_inj => exact h.path_inj
  case room =>
    rw [ha.kernMemCurr, ha.pageId]
    exact h.room
  case frame =>
    intro x hx hr
    unfold Given
    rw [(ha.page x).1, ha.kernMemCurr]
    exact h.frame x hx ((ha.res x).mp hr)
  case frame_inj =>
    intro x y hx hy hr hr' heq
    rw [(ha.page x).1, (ha.page y).1] at heq
    exact h.frame_inj x y hx hy ((ha.res x).mp hr) ((ha.res y).mp hr') heq
  case status =>
    intro x p π hx
    obtain ⟨hlt, hkva⟩ := h.status x p π hx
    refine ⟨fun hlen => ?_, fun hout => ?_⟩
    · rw [ha.status_eq fun q π' hx' => by rw [hx] at hx'; cases hx'; omega, (ha.page x).2.2]
      exact hlt hlen
    · rw [(ha.page x).1]
      exact hkva fun hcon => hout ((ha.res x).mpr hcon)
  case loose =>
    intro x p hx
    obtain ⟨hres, hst, hpte⟩ := h.loose x p hx
    refine ⟨(ha.res x).mpr hres, ?_, by rw [(ha.page x).2.2]; exact hpte⟩
    rw [ha.status_eq fun q π' hx' => by rw [hx] at hx'; cases hx']
    exact hst
  case dir =>
    intro x p hx
    rw [ha.procs, (ha.page x).1]
    exact h.dir x p hx
  case parent => exact h.parent
  case slot => exact fun id p π i hid hπ hu => ha.slot h hid hπ hu
  case leaf =>
    intro k p π hk hπ
    obtain ⟨hpath, hpte⟩ := h.leaf k p π hk hπ
    rw [(ha.page k).2.1, (ha.page k).2.2]
    refine ⟨hpath, fun id hid => ?_⟩
    rw [(ha.page id).1]
    exact hpte id hid

/-- The pages that are out stay in their sectors. -/
theorem stored (ha : Alters own s s') (h : Shape root own s) (hst : Stored own s) :
    Stored own s' := by
  obtain ⟨slot, hat, hinj⟩ := hst
  have hout : ∀ x, ¬ Res s' x → ¬ Res s x := fun x hx hcon => hx ((ha.res x).mpr hcon)
  refine ⟨slot, fun x hx hr => ?_, fun x y hx hy hr hr' => hinj x y hx hy (hout x hr) (hout y hr')⟩
  obtain ⟨p, j, π, tab, _, hπ, htab, hpte, _, hp, hsd⟩ := h.out_entry hx (hout x hr)
  obtain ⟨hlt, t, j', hpte', hpfn⟩ := hat x hx (hout x hr)
  rw [hpte] at hpte'
  cases hpte'
  refine ⟨by rw [ha.writes]; exact hlt, (s.pages tab).kva, j, by rw [(ha.page x).2.2]; exact hpte, ?_⟩
  rcases ha.entry tab p π j htab (by omega) with hlike | ⟨_, _, hno, _⟩
  · rw [hlike.1]
    exact hpfn
  · rw [hsd] at hno
    cases hno

/-- **A step that moves no page keeps the invariant.** -/
theorem near (ha : Alters own s s') (hn : Near root own s) : Near root own s' := by
  refine ⟨ha.shape hn.shape, fun p => ?_, ha.stored hn.shape hn.stored,
    hn.drawn.same ha.writes ha.sector⟩
  exact (hn.tally p).congr (by rw [ha.procs]) (by rw [ha.procs]) (by rw [ha.procs])
    fun x _ => ha.res x

/-- The pages that can be evicted stay behind their processes. -/
theorem settled (ha : Alters own s s') (hset : Settled own s) : Settled own s' := by
  intro x p hx
  rw [ha.status_eq fun q π' hx' => by rw [hx] at hx'; cases hx']
  exact hset x p hx

end Alters

/-- One entry becomes like itself. -/
theorem alters_modifyWord (h : Shape root own s) (hid : own id = some (p, some π))
    (hπ : π.length ≤ 2) (i : Nat) {f : Pte → Pte} (hf : ∀ e, Like e (f e)) :
    Alters own s (modifyWord (s.pages id).kva i f s) := by
  constructor
  case page => exact fun _ => ⟨rfl, rfl, rfl⟩
  case status => exact fun _ => Or.inl rfl
  case entry =>
    intro y q π' j _ _
    left
    by_cases hpair : (s.pages y).kva = (s.pages id).kva ∧ j = i
    · rw [hpair.1, hpair.2]
      simp only [modifyWord, setWord, and_self, if_true]
      exact hf _
    · simp only [modifyWord, setWord, if_neg hpair]
      exact .refl _
  case kernel =>
    intro j
    have hne := h.kva_ne_root (by rw [hid]; simp) (h.table_res hid hπ)
    simp [modifyWord, setWord, hne.symm]
  case pageId => rfl
  case kernMemCurr => rfl
  case procs => rfl
  case sector => rfl
  case writes => rfl

end Mm
