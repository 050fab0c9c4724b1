import OslabRiscv.Mm.Runs

/-!
# What page faults and new processes write

Everything that is done for a process writes to frames of that process only (`Confined`).  A
property of the words of its tables, for their level and index, is carried through all that is
done to them in one go (`WordRules`, `Words`).
-/

namespace Mm

open Outcome

variable {root : Nat → Pte} {own own' : Owners} {s s' : State} {p q id k x t i va kva : Nat}
  {π : List Nat} {st : PageStatus} {W : Nat → Nat → Pte → Prop}

/-! ## Frames of a process -/

/-- One of the descriptors on the list of `p` has the frame. -/
def HasFrame (p : Nat) (s : State) (t : Nat) : Prop :=
  ∃ k ∈ (s.procs p).pagehead, Res s k ∧ (s.pages k).kva = t

/-- A resident page that `p` owns is one of its frames. -/
theorem Shape.hasFrame (h : Shape root own s) {r : Option (List Nat)} (hk : own k = some (p, r))
    (hres : Res s k) : HasFrame p s (s.pages k).kva :=
  ⟨k, (h.listed p k).mpr ⟨r, hk⟩, hres, rfl⟩

/-- A table of `p` above its leaf tables is one of its frames. -/
theorem Shape.hasFrame_table (h : Shape root own s) (hid : own id = some (p, some π))
    (hπ : π.length ≤ 2) : HasFrame p s (s.pages id).kva :=
  h.hasFrame hid (h.table_res hid hπ)

/-- A frame of `p` is none of another process. -/
theorem Shape.frame_alone (h : Shape root own s) (hid : own id = some (q, some π))
    (hπ : π.length ≤ 2) (hqp : q ≠ p) : ¬ HasFrame p s (s.pages id).kva := by
  intro hf
  obtain ⟨k, hmem, hres, hkva⟩ := hf
  obtain ⟨r, hk⟩ := (h.listed p k).mp hmem
  have heq := h.frame_inj k id (by rw [hk]; simp) (by rw [hid]; simp) hres (h.table_res hid hπ) hkva
  rw [heq, hid] at hk
  cases hk
  exact hqp rfl

/-- A frame that a process has was given out by the pool. -/
theorem Shape.hasFrame_given (h : Shape root own s) (hf : HasFrame p s t) : Given s t := by
  obtain ⟨k, hmem, hres, rfl⟩ := hf
  obtain ⟨r, hk⟩ := (h.listed p k).mp hmem
  exact h.frame k (by rw [hk]; simp) hres

/-- Behind a used entry above the last level there is a table. -/
theorem Shape.linked (h : Shape root own s) (hid : own id = some (p, some π)) (hπ : π.length ≤ 1)
    (hu : π = [] → User root i) (hp : (s.mem (s.pages id).kva i).has present = true) :
    ∃ k, own k = some (p, some (i :: π)) := by
  rcases h.slot id p π i hid (by omega) hu with ⟨hor, _⟩ | ⟨k, hk, _⟩
  · rcases hor with ⟨habs, _⟩ | ⟨hlen, _⟩
    · rw [habs] at hp
      cases hp
    · omega
  · exact ⟨k, hk⟩

/-- Memory is written in frames of `p` only; `p` keeps its frames, and those that are added are
new ones. -/
structure Confined (p : Nat) (s s' : State) : Prop where
  mem : ∀ t i, s'.mem t i ≠ s.mem t i → HasFrame p s' t
  keeps : ∀ t, HasFrame p s t → HasFrame p s' t
  new : ∀ t, HasFrame p s' t → HasFrame p s t ∨ s.kernMemCurr ≤ t
  kern : s.kernMemCurr ≤ s'.kernMemCurr

theorem Confined.refl (p : Nat) (s : State) : Confined p s s :=
  ⟨fun _ _ hne => absurd rfl hne, fun _ h => h, fun _ h => Or.inl h, le_rfl⟩

theorem Confined.trans {s'' : State} (h : Confined p s s') (h' : Confined p s' s'') :
    Confined p s s'' := by
  refine ⟨fun t i hne => ?_, fun t ht => h'.keeps t (h.keeps t ht), fun t ht => ?_,
    h.kern.trans h'.kern⟩
  · by_cases hsame : s''.mem t i = s'.mem t i
    · rw [hsame] at hne
      exact h'.keeps t (h.mem t i hne)
    · exact h'.mem t i hsame
  · rcases h'.new t ht with ht | hlt
    · exact h.new t ht
    · exact Or.inr (h.kern.trans hlt)

/-- Only memory is written, or descriptors that keep their frames. -/
theorem Confined.of_mem (hlist : (s'.procs p).pagehead = (s.procs p).pagehead)
    (hres : ∀ k, Res s' k ↔ Res s k) (hkva : ∀ k, (s'.pages k).kva = (s.pages k).kva)
    (hkern : s'.kernMemCurr = s.kernMemCurr)
    (hmem : ∀ t i, s'.mem t i ≠ s.mem t i → HasFrame p s t) : Confined p s s' := by
  have hsame : ∀ t, HasFrame p s' t ↔ HasFrame p s t := by
    intro t
    unfold HasFrame
    simp only [hlist, hres, hkva]
  exact ⟨fun t i hne => (hsame t).mpr (hmem t i hne), fun t ht => (hsame t).mpr ht,
    fun t ht => Or.inl ((hsame t).mp ht), hkern.ge⟩

/-! ## Words of tables -/

/-- `W` holds of every word of the tables of live processes, for the level of the table and the
index of the word. -/
def Worded (W : Nat → Nat → Pte → Prop) (own : Owners) (s : State) : Prop :=
  ∀ id p π i, (s.procs p).live = true → own id = some (p, some π) → π.length ≤ 2 →
    W π.length i (s.mem (s.pages id).kva i)

/-- The same, whatever the owners are called. -/
def Words (W : Nat → Nat → Pte → Prop) (root : Nat → Pte) (s : State) : Prop :=
  ∀ own, Shape root own s → Worded W own s

/-- What is done to the words of tables keeps `W`. -/
structure WordRules (root : Nat → Pte) (W : Nat → Nat → Pte → Prop) : Prop where
  top : ∀ i, W 0 i (root i)
  blank : ∀ n i, 0 < n → W n i ⟨0, 0⟩
  table : ∀ n i e pfn, n ≤ 1 → (n = 0 → User root i) → W n i e →
    W n i (setAttribute (present ||| user) (setPfn pfn e))
  leaf : ∀ i e pfn, W 2 i e → W 2 i (setAttribute leafAttr (setPfn pfn e))
  out : ∀ i e sector, e.has present = true → e.has inSd = false → W 2 i e →
    W 2 i (outEntry sector e)
  back : ∀ i e kva, e.has present = false → e.has inSd = true → W 2 i e → W 2 i (inEntry kva e)
  touch : ∀ i e bits, bits = accessed ∨ bits = accessed ||| dirty → W 2 i e →
    W 2 i (setAttribute bits e)

/-- A table has its path whatever the owners are called. -/
theorem Shape.same_table (h : Shape root own s) (h' : Shape root own' s) {d : Nat}
    (hd : own d = some (p, some [])) (hid : own' id = some (p, some π)) (hπ : π.length ≤ 2) :
    own id = some (p, some π) := by
  have hlisted : own id ≠ none := by
    obtain ⟨r, hr⟩ := (h.listed p id).mp ((h'.listed p id).mpr ⟨_, hid⟩)
    rw [hr]
    simp
  have hres := h'.table_res hid hπ
  -- induction on the path, from the root
  induction π generalizing id with
  | nil =>
      have hkva : (s.pages d).kva = (s.pages id).kva := (h.dir d p hd).symm.trans (h'.dir id p hid)
      have heq := h.frame_inj d id (by rw [hd]; simp) hlisted (h.table_res hd (by simp)) hres hkva
      rw [← heq]
      exact hd
  | cons i π ih =>
      obtain ⟨_, hu, m, hm'⟩ := h'.parent id p i π hid
      have hπ1 : π.length ≤ 1 := by simpa using hπ
      have hm : own m = some (p, some π) := by
        refine ih hm' (by omega) ?_ (h'.table_res hm' (by omega))
        obtain ⟨r, hr⟩ := (h.listed p m).mp ((h'.listed p m).mpr ⟨_, hm'⟩)
        rw [hr]
        simp
      obtain ⟨hp, hpage⟩ := h'.filled_table hid hm' hπ1
      obtain ⟨k, hk⟩ := h.linked hm hπ1 hu hp
      have heq := h.frame_inj k id (by rw [hk]; simp) hlisted (h.table_res hk (by simpa using hπ))
        hres ((h.filled_table hk hm hπ1).2.symm.trans hpage)
      rw [← heq]
      exact hk

/-- The owners' reading of the words is the reading through the trees. -/
theorem Worded.words (hw : Worded W own s) (h : Shape root own s) (hr : Rooted own s) :
    Words W root s := by
  intro own' h' id p π i hlive hid hπ
  obtain ⟨d, hd⟩ := hr p hlive
  exact hw id p π i hlive (h.same_table h' hd hid hπ) hπ

/-- Nothing is written to tables. -/
theorem Worded.same (hw : Worded W own s) (hlive : ∀ q, (s'.procs q).live = (s.procs q).live)
    (hmem : ∀ id q π i, own id = some (q, some π) → π.length ≤ 2 →
      s'.mem (s'.pages id).kva i = s.mem (s.pages id).kva i) : Worded W own s' := by
  intro id q π i hl hid hπ
  rw [hmem id q π i hid hπ]
  rw [hlive] at hl
  exact hw id q π i hl hid hπ

/-- One entry is written, and what is put behind it. -/
theorem Worded.links (hw : Worded W own s) (hl : Shape.Links root own s s' id k p i π)
    (hentry : (s.procs p).live = true → W π.length i (s'.mem (s.pages id).kva i))
    (hnew : π.length ≤ 1 → ∀ j, W (π.length + 1) j (s'.mem (s'.pages k).kva j)) :
    Worded W (Shape.link own k p (i :: π)) s' := by
  intro y q π' j hlive hy hπ'
  rw [hl.procs] at hlive
  rcases Shape.link_cases hy with ⟨rfl, rfl, rfl⟩ | ⟨hne, hown⟩
  · exact hnew (by simpa using hπ') j
  · rw [hl.pages y hne]
    by_cases hsame : y = id ∧ j = i
    · obtain ⟨rfl, rfl⟩ := hsame
      rw [hl.table] at hown
      cases hown
      exact hentry hlive
    · rw [hl.mem y q π' j hown hπ' (by tauto)]
      exact hw y q π' j hlive hown hπ'

/-! ## Allocation -/

/-- An eviction keeps the words: the entry that loses its page stays with its owner. -/
theorem Worded.spill (hw : Worded W own s) (hrules : WordRules root W) (h : Shape root own s)
    (hsp : Spill own p k id i π s s') : Worded W own s' := by
  have hl := hw.links (hsp.links h) (fun hlive => ?_) fun hlen => ?_
  · rwa [Shape.link_eq hsp.page] at hl
  · rw [hsp.evicts.entry, hsp.len]
    refine hrules.out i _ _ hsp.present hsp.notSd ?_
    rw [← hsp.len]
    exact hw id p π i hlive hsp.table hsp.len.le
  · have := hsp.len
    omega

/-- A page taken from the pool keeps the words. -/
theorem Worded.takes (hw : Worded W own s) (ht : Takes p kva st s s')
    (hlive : ∀ q, (s'.procs q).live = (s.procs q).live) :
    Worded W (hold own s.pageId p) s' := by
  intro y q π i hl hy hπ
  obtain ⟨hne, hy⟩ := Takes.hold_path hy
  rw [ht.mem, ht.pages y hne]
  rw [hlive] at hl
  exact hw y q π i hl hy hπ

/-- What is written when a page is put away. -/
theorem Spill.changed (hsp : Spill own p k id i π s s') {j : Nat} (hne : s'.mem t j ≠ s.mem t j) :
    t = (s.pages id).kva ∨ t = (s.pages k).kva := by
  by_contra hcon
  push Not at hcon
  refine hne (hsp.evicts.mem t j (Or.inl hcon.1) ?_)
  rw [hsp.frame]
  exact hcon.2

/-- An eviction takes the victim's frame from `p` and gives it none. -/
theorem Spill.frames (h : Shape root own s) (hsp : Spill own p k id i π s s') :
    (∀ t, HasFrame p s t → HasFrame p s' t ∨ t = (s.pages k).kva) ∧
      (∀ t, HasFrame p s' t → HasFrame p s t) ∧ HasFrame p s (s.pages k).kva ∧
      HasFrame p s (s.pages id).kva := by
  refine ⟨fun t ht => ?_, fun t ht => ?_, h.hasFrame hsp.page hsp.res,
    h.hasFrame_table hsp.table hsp.len.le⟩
  · obtain ⟨x, hx, hres, rfl⟩ := ht
    by_cases hxk : x = k
    · rw [hxk]
      exact Or.inr rfl
    · refine Or.inl ⟨x, ?_, (hsp.res_other hxk).mpr hres, ?_⟩
      · rw [hsp.evicts.procs]
        exact hx
      · rw [hsp.evicts.pages x hxk]
  · obtain ⟨x, hx, hres, rfl⟩ := ht
    have hxk : x ≠ k := by
      intro hcon
      rw [hcon] at hres
      exact hsp.out hres
    rw [hsp.evicts.procs] at hx
    exact ⟨x, hx, (hsp.res_other hxk).mp hres, by rw [hsp.evicts.pages x hxk]⟩

/-- A page taken from the pool is the only frame that `p` gains. -/
theorem Takes.frames (h : Shape root own s) (ht : Takes p kva st s s') (hst : st ≠ .notInMem)
    (t : Nat) : HasFrame p s' t ↔ HasFrame p s t ∨ t = kva := by
  have hne : ∀ x ∈ (s.procs p).pagehead, x ≠ s.pageId := by
    intro x hx
    obtain ⟨r, hr⟩ := (h.listed p x).mp hx
    exact Takes.hold_some h x hr
  constructor
  · intro hf
    obtain ⟨x, hx, hres, rfl⟩ := hf
    rw [ht.pagehead] at hx
    rcases List.mem_append.mp hx with hx | hx
    · have hxne := hne x hx
      rw [ht.pages x hxne]
      exact Or.inl ⟨x, hx, (ht.res_other hxne).mp hres, rfl⟩
    · rw [List.mem_singleton.mp hx, ht.page]
      exact Or.inr rfl
  · rintro (hf | rfl)
    · obtain ⟨x, hx, hres, rfl⟩ := hf
      have hxne := hne x hx
      refine ⟨x, ?_, (ht.res_other hxne).mpr hres, by rw [ht.pages x hxne]⟩
      rw [ht.pagehead]
      exact List.mem_append_left _ hx
    · refine ⟨s.pageId, ?_, ht.res hst, by rw [ht.page]⟩
      rw [ht.pagehead]
      exact List.mem_append_right _ (List.mem_singleton.mpr rfl)

/-- A new descriptor, for a new frame or one the process has. -/
theorem Allots.confined (h : Shape root own s) (ha : Allots own p st s s') (hst : st ≠ .notInMem) :
    Confined p s s' := by
  cases ha with
  | full k id i π s₁ _ hsp ht hkern _ =>
      obtain ⟨hto, hfrom, hk, hid⟩ := hsp.frames h
      have hall : ∀ t, HasFrame p s' t ↔ HasFrame p s t := by
        intro t
        rw [ht.frames (hsp.shape h) hst t]
        constructor
        · rintro (hf | rfl)
          · exact hfrom t hf
          · exact hk
        · exact hto t
      refine ⟨fun t j hne => (hall t).mpr ?_, fun t => (hall t).mpr,
        fun t hf => Or.inl ((hall t).mp hf), ?_⟩
      · rw [ht.mem] at hne
        rcases hsp.changed hne with rfl | rfl
        · exact hid
        · exact hk
      · rw [hkern, hsp.evicts.kernMemCurr]
  | room _ ht hkern _ =>
      refine ⟨fun t j hne => ?_, fun t hf => (ht.frames h hst t).mpr (Or.inl hf),
        fun t hf => ?_, ?_⟩
      · rw [ht.mem] at hne
        exact absurd rfl hne
      · rcases (ht.frames h hst t).mp hf with hf | rfl
        · exact Or.inl hf
        · exact Or.inr le_rfl
      · rw [hkern]
        omega

/-- An allocation starts and ends no process. -/
theorem Allots.live (ha : Allots own p st s s') (q : Nat) :
    (s'.procs q).live = (s.procs q).live := by
  cases ha with
  | full k id i π s₁ _ hsp ht _ hprocs =>
      by_cases hq : q = p
      · rw [hq, hprocs, hsp.evicts.procs]
      · rw [ht.others q hq, hsp.evicts.procs]
  | room _ ht _ hprocs =>
      by_cases hq : q = p
      · rw [hq, hprocs]
      · rw [ht.others q hq]

/-- An allocation keeps the words, whichever way the page was found. -/
theorem Worded.allots (hw : Worded W own s) (hrules : WordRules root W) (h : Shape root own s)
    (ha : Allots own p st s s') : Worded W (hold own s.pageId p) s' := by
  have hlive := ha.live
  cases ha with
  | full k id i π s₁ _ hsp ht _ _ =>
      rw [← hsp.evicts.pageId]
      refine (hw.spill hrules h hsp).takes ht fun q => ?_
      rw [hlive, hsp.evicts.procs]
  | room _ ht _ _ => exact hw.takes ht hlive

/-- `allocPagetable` does to memory what it is allowed to. -/
theorem allocPagetable_confined (hn : Near root own s) (hset : Settled own s)
    (hst : st = .swapable ∨ st = .unswapable) (hrules : WordRules root W) (hw : Worded W own s) :
    Holds AnyStop (fun r => Alloc root own p st s r ∧ Worded W (hold own s.pageId p) r.2 ∧
      Confined p s r.2) (allocPagetable p st s) := by
  have hst' : st ≠ .notInMem := by
    rcases hst with rfl | rfl
    · decide
    · decide
  have hcases : Holds AnyStop (fun r => r.1 = s.pageId ∧ Allots own p st s r.2)
      (allocPagetable p st s) := allocPagetable_allots hn.shape hset
  refine ((allocPagetable_alloc hn hset hst).both hcases).mono fun r hr => ?_
  obtain ⟨hA, _, hallots⟩ := hr
  exact ⟨hA, hw.allots hrules hn.shape hallots, hallots.confined hn.shape hst'⟩

/-! ## Walks that make what is missing -/

/-- Roots stay where no owner changes and no process starts. -/
theorem Rooted.kept (hr : Rooted own s) (hkept : ∀ x r, own x = some r → own' x = some r)
    (hlive : ∀ q, (s'.procs q).live = (s.procs q).live) : Rooted own' s' := by
  intro q hq
  rw [hlive] at hq
  obtain ⟨d, hd⟩ := hr q hq
  exact ⟨d, hkept d _ hd⟩

/-- Linking the page just held changes the owner of no other page. -/
theorem hold_link_kept (h : Shape root own s) (π : List Nat) (y : Nat) (r : Nat × Option (List Nat))
    (hy : own y = some r) : Shape.link (hold own s.pageId p) s.pageId p π y = some r := by
  have hne := Takes.hold_some h y hy
  rw [Shape.link_other _ _ _ hne, hold_other _ _ hne, hy]

/-- Stepping down one level writes into the tables of `p` only. -/
theorem tableAt_confined (hs : Sane root own s) (hr : Rooted own s)
    (hid : own id = some (p, some π)) (hπ : π.length ≤ 1) (hu : π = [] → User root i)
    (hrules : WordRules root W) (hw : Words W root s) :
    Holds AnyStop (fun r => Words W root r.2 ∧ Confined p s r.2)
      (tableAt p (s.pages id).kva i s) := by
  unfold tableAt
  by_cases hp : (s.mem (s.pages id).kva i).has present = true
  · rw [if_pos hp]
    exact ⟨hw, .refl p s⟩
  · rw [if_neg hp]
    refine Holds.bind (allocPagetable_confined hs.toNear hs.settled (Or.inr rfl) hrules
      (hw own hs.shape)) fun r hA => ?_
    obtain ⟨x, s₁⟩ := r
    obtain ⟨hA, hW, hC⟩ := hA
    obtain ⟨hxid, hid₁, hx₁, hst₁, hpid, _, hl⟩ := hA.extended hs hid hπ hu (by simpa using hp)
    have h₁ := hA.near.shape
    have hres : Res s₁ x := (h₁.loose x p hx₁).1
    have hne : (s₁.pages id).kva ≠ (s₁.pages x).kva := by
      refine h₁.kva_ne hid₁ (by omega) (by rw [hx₁]; simp) hres fun hcon => ?_
      rw [hcon, hx₁] at hid₁
      cases hid₁
    rw [hpid] at hne
    change Words W root (linkTable (s.pages id).kva i (s₁.pages x).kva s₁) ∧
      Confined p s (linkTable (s.pages id).kva i (s₁.pages x).kva s₁)
    constructor
    · have hlinked := hW.links hl (fun hlive => ?_) fun _ j => ?_
      · refine hlinked.words (h₁.update hl) (hr.kept (fun y r hy => ?_) fun q => (hA.procs q).2)
        rw [hxid]
        exact hold_link_kept hs.shape _ y r hy
      · rw [hpid]
        have hentry : (linkTable (s.pages id).kva i (s₁.pages x).kva s₁).mem (s.pages id).kva i =
            setAttribute (present ||| user) (setPfn (kva2pa (s₁.pages x).kva / 4096)
              (s₁.mem (s.pages id).kva i)) := by
          simp [linkTable, modifyWord, setWord, clearPgdir, setContent, hne]
        rw [hentry]
        refine hrules.table _ i _ _ hπ (fun hlen => hu (List.length_eq_zero_iff.mp hlen)) ?_
        rw [← hpid]
        exact hW id p π i hlive hid₁ (by omega)
      · have hzero : (linkTable (s.pages id).kva i (s₁.pages x).kva s₁).mem (s₁.pages x).kva j =
            ⟨0, 0⟩ := by
          simp [linkTable, modifyWord, setWord, clearPgdir, setContent, hne.symm]
        change W _ j ((linkTable (s.pages id).kva i (s₁.pages x).kva s₁).mem (s₁.pages x).kva j)
        rw [hzero]
        exact hrules.blank _ j (Nat.succ_pos _)
    · refine hC.trans (.of_mem rfl (fun _ => Iff.rfl) (fun _ => rfl) rfl fun t j hchg => ?_)
      by_cases ht : t = (s.pages id).kva
      · rw [ht, ← hpid]
        exact h₁.hasFrame_table hid₁ (by omega)
      · by_cases htx : t = (s₁.pages x).kva
        · rw [htx]
          exact h₁.hasFrame hx₁ hres
        · refine absurd ?_ hchg
          simp [linkTable, modifyWord, setWord, clearPgdir, setContent, ht, htx]

/-- Filling the last entry writes into the tables of `p` only. -/
theorem allocLeaf_confined (hs : Sane root own s) (hr : Rooted own s)
    (hid : own id = some (p, some [vpn1 va, vpn2 va])) (hst : st = .swapable ∨ st = .unswapable)
    (hin : ∀ k, own k = some (p, some (pathOf va)) → Res s k) (hrules : WordRules root W)
    (hw : Words W root s) :
    Holds AnyStop (fun r => Words W root r.2 ∧ Confined p s r.2)
      (if (s.mem (s.pages id).kva (vpn0 va)).has present then
        .ok (pageOf (s.mem (s.pages id).kva (vpn0 va)), s)
      else allocPagetable p st s >>= fun r =>
        .ok ((r.2.pages r.1).kva, linkLeaf (s.pages id).kva (vpn0 va) va r.1 r.2)) := by
  by_cases hp : (s.mem (s.pages id).kva (vpn0 va)).has present = true
  · rw [if_pos hp]
    exact ⟨hw, .refl p s⟩
  · have hnone : ∀ k, own k ≠ some (p, some (pathOf va)) := by
      intro k hk
      rcases hs.shape.filled hk hid with ⟨_, hpk, _⟩ | ⟨hout, _⟩
      · exact hp hpk
      · exact hout (hin k hk)
    rw [if_neg hp]
    refine Holds.bind (allocPagetable_confined hs.toNear hs.settled hst hrules
      (hw own hs.shape)) fun r hA => ?_
    obtain ⟨x, s₁⟩ := r
    obtain ⟨hA, hW, hC⟩ := hA
    have hxid : x = s.pageId := hA.id
    obtain ⟨hid₁, hx₁, hpid, hl⟩ := hA.leafLinks hs hid hnone
    have h₁ := hA.near.shape
    have hpage : (linkLeaf (s.pages id).kva (vpn0 va) va x s₁).pages x =
        { s₁.pages x with uva := va, pte := some ((s.pages id).kva, vpn0 va) } := by
      simp [linkLeaf, modifyWord, setWord, setPage]
    constructor
    · have hlinked := hW.links hl (fun hlive => ?_) fun hlen => ?_
      · refine hlinked.words (h₁.update hl) (hr.kept (fun y r hy => ?_) fun q => (hA.procs q).2)
        rw [hxid]
        exact hold_link_kept hs.shape _ y r hy
      · rw [hpid]
        have hentry : (linkLeaf (s.pages id).kva (vpn0 va) va x s₁).mem (s.pages id).kva (vpn0 va) =
            setAttribute leafAttr (setPfn (kva2pa (s₁.pages x).kva / 4096)
              (s₁.mem (s.pages id).kva (vpn0 va))) := by
          simp [linkLeaf, modifyWord, setWord, setPage]
        rw [hentry]
        refine hrules.leaf _ _ _ ?_
        rw [← hpid]
        exact hW id p _ (vpn0 va) hlive hid₁ (by simp)
      · simp at hlen
    · have hpages : ∀ k, ((linkLeaf (s.pages id).kva (vpn0 va) va x s₁).pages k).kva =
          (s₁.pages k).kva ∧ ((linkLeaf (s.pages id).kva (vpn0 va) va x s₁).pages k).status =
          (s₁.pages k).status := by
        intro k
        by_cases hk : k = x
        · rw [hk, hpage]
          exact ⟨rfl, rfl⟩
        · rw [hl.pages k hk]
          exact ⟨rfl, rfl⟩
      refine hC.trans (.of_mem rfl (fun k => ?_) (fun k => (hpages k).1) rfl fun t j hchg => ?_)
      · unfold Res
        rw [(hpages k).2]
      · by_cases ht : t = (s.pages id).kva
        · rw [ht, ← hpid]
          exact h₁.hasFrame_table hid₁ (by simp)
        · refine absurd ?_ hchg
          simp [linkLeaf, modifyWord, setWord, setPage, ht]

/-- `alloc_page_helper` writes into the tables of `p` only. -/
theorem allocPageHelper_confined (hs : Sane root own s) (hr : Rooted own s) {d : Nat}
    (hd : own d = some (p, some [])) (hu : User root (vpn2 va))
    (hst : st = .swapable ∨ st = .unswapable)
    (hin : ∀ k, own k = some (p, some (pathOf va)) → Res s k) (hrules : WordRules root W)
    (hw : Words W root s) :
    Holds AnyStop (fun r => Words W root r.2 ∧ Confined p s r.2) (allocPageHelper va p st s) := by
  unfold allocPageHelper
  rw [hs.shape.dir d p hd]
  refine Holds.bind ((tableAt_table hs hd (by simp) fun _ => hu).both
    (tableAt_confined hs hr hd (by simp) (fun _ => hu) hrules hw)) fun r hT => ?_
  obtain ⟨⟨own₁, m, hT₁⟩, hw₁, hC₁⟩ := hT
  obtain ⟨second, s₁⟩ := r
  simp only at hw₁ hC₁ ⊢
  rw [show second = (s₁.pages m).kva from hT₁.kva]
  have hr₁ := hr.grows hT₁.grows
  refine Holds.bind ((tableAt_table hT₁.sane hT₁.table (by simp) (by simp)).both
    (tableAt_confined hT₁.sane hr₁ hT₁.table (by simp) (by simp) hrules hw₁)) fun r hT => ?_
  obtain ⟨⟨own₂, l, hT₂⟩, hw₂, hC₂⟩ := hT
  obtain ⟨third, s₂⟩ := r
  have hthird : third = (s₂.pages l).kva := hT₂.kva
  simp only [setPage_self] at hw₂ hC₂ ⊢
  rw [hthird]
  refine (allocLeaf_confined hT₂.sane (hr₁.grows hT₂.grows) hT₂.table hst
    (hT₁.page_res hT₂ hin) hrules hw₂).mono fun r h => ?_
  exact ⟨h.1, (hC₁.trans hC₂).trans h.2⟩

/-! ## Pages that come back -/

/-- A page that comes back from the disk keeps the words. -/
theorem Worded.fetch (hw : Worded W own s) (hrules : WordRules root W) (h : Shape root own s)
    (hf : Fetch own p k id i va kva π s s') : Worded W own s' := by
  obtain ⟨hp, hsd, _⟩ := hf.entry h
  have hl := hw.links (hf.links h) (fun hlive => ?_) fun hlen => ?_
  · rwa [Shape.link_eq hf.page] at hl
  · rw [hf.brings.entry, hf.len]
    refine hrules.back i _ _ hp hsd ?_
    rw [← hf.len]
    exact hw id p π i hlive hf.table hf.len.le
  · have := hf.len
    omega

/-- A page that comes back writes its entry and its own frame. -/
theorem Fetch.changed (hf : Fetch own p k id i va kva π s s') {j : Nat}
    (hne : s'.mem t j ≠ s.mem t j) : t = (s.pages id).kva ∨ t = kva := by
  by_contra hcon
  push Not at hcon
  exact hne (hf.brings.mem t j (Or.inl hcon.1) hcon.2)

/-- A page that comes back is the only frame that `p` gains. -/
theorem Fetch.frames (h : Shape root own s) (hf : Fetch own p k id i va kva π s s') (t : Nat) :
    HasFrame p s' t ↔ HasFrame p s t ∨ t = kva := by
  constructor
  · intro hx
    obtain ⟨x, hx, hres, rfl⟩ := hx
    rw [hf.brings.procs] at hx
    by_cases hxk : x = k
    · rw [hxk, hf.brings.page]
      exact Or.inr rfl
    · rw [hf.brings.pages x hxk]
      exact Or.inl ⟨x, hx, (hf.res_other hxk).mp hres, rfl⟩
  · rintro (hx | rfl)
    · obtain ⟨x, hx, hres, rfl⟩ := hx
      have hxk : x ≠ k := by
        intro hcon
        rw [hcon] at hres
        exact hf.out hres
      refine ⟨x, ?_, (hf.res_other hxk).mpr hres, by rw [hf.brings.pages x hxk]⟩
      rw [hf.brings.procs]
      exact hx
    · refine ⟨k, ?_, hf.res, by rw [hf.brings.page]⟩
      rw [hf.brings.procs]
      exact (h.listed p k).mpr ⟨_, hf.page⟩

/-- The return of a page writes into the frames of `p` only. -/
theorem swapIn_confined (hs : Sane root own s) (hr : Rooted own s)
    (hid : own id = some (p, some [vpn1 va, vpn2 va])) (hk : own k = some (p, some (pathOf va)))
    (hout : ¬ Res s k) (hrules : WordRules root W) (hw : Words W root s) :
    Holds AnyStop (fun s' => Words W root s' ∧ Confined p s s')
      (swapIn (s.pages id).kva (vpn0 va) va p s) := by
  refine (swapIn_sane hs hid hk hout).mono fun s' h => ?_
  obtain ⟨hs', hprocs, k₁, id₁, i₁, π₁, s₁, hsp, hf⟩ := h
  have h₁ := hsp.shape hs.shape
  obtain ⟨hto, hfrom, hk₁, hid₁⟩ := hsp.frames hs.shape
  have hall : ∀ t, HasFrame p s' t ↔ HasFrame p s t := by
    intro t
    rw [hf.frames h₁ t]
    constructor
    · rintro (ht | rfl)
      · exact hfrom t ht
      · exact hk₁
    · exact hto t
  constructor
  · have hworded : Worded W own s' :=
      ((hw own hs.shape).spill hrules hs.shape hsp).fetch hrules h₁ hf
    exact hworded.words hs'.shape (hr.kept (fun _ _ h => h) fun q => by rw [hprocs])
  · refine ⟨fun t j hne => (hall t).mpr ?_, fun t => (hall t).mpr,
      fun t ht => Or.inl ((hall t).mp ht), ?_⟩
    · by_cases hsame : s₁.mem t j = s.mem t j
      · rw [← hsame] at hne
        rcases hf.changed hne with rfl | rfl
        · exact hfrom _ (h₁.hasFrame_table hid (by simp))
        · exact hk₁
      · rcases hsp.changed hsame with rfl | rfl
        · exact hid₁
        · exact hk₁
    · rw [hf.brings.kernMemCurr, hsp.evicts.kernMemCurr]

/-! ## Page faults -/

/-- Setting access bits stays inside the leaf table of `p`. -/
theorem touch_confined (hs : Sane root own s) (hr : Rooted own s)
    (hid : own id = some (p, some [vpn1 va, vpn2 va])) (hrules : WordRules root W)
    (hw : Words W root s) {bits : BitVec 10} (hbits : bits = accessed ∨ bits = accessed ||| dirty)
    (hlike : ∀ e, Like e (setAttribute bits e)) :
    Words W root (modifyWord (s.pages id).kva (vpn0 va) (setAttribute bits) s) ∧
      Confined p s (modifyWord (s.pages id).kva (vpn0 va) (setAttribute bits) s) := by
  have h := hs.shape
  have hworded : Worded W own (modifyWord (s.pages id).kva (vpn0 va) (setAttribute bits) s) := by
    intro y q π j hlive hy hπ
    have hword := hw own h y q π j hlive hy hπ
    change W π.length j ((modifyWord _ _ _ s).mem (s.pages y).kva j)
    by_cases hsame : (s.pages y).kva = (s.pages id).kva ∧ j = vpn0 va
    · obtain ⟨hkva, rfl⟩ := hsame
      have hyid : y = id := by
        by_contra hne
        exact h.kva_ne hy hπ (by rw [hid]; simp) (h.table_res hid (by simp)) hne hkva
      rw [hyid] at hy hword ⊢
      rw [hid] at hy
      cases hy
      simp only [modifyWord, setWord, and_self, if_true]
      exact hrules.touch _ _ _ hbits hword
    · simp only [modifyWord, setWord, if_neg hsame]
      exact hword
  have hs' := hs.touch hid (by simp) (vpn0 va) hlike
  refine ⟨hworded.words hs'.shape (hr.kept (fun _ _ h => h) fun _ => rfl),
    .of_mem rfl (fun _ => Iff.rfl) (fun _ => rfl) rfl fun t j hne => ?_⟩
  by_cases ht : t = (s.pages id).kva
  · rw [ht]
    exact h.hasFrame_table hid (by simp)
  · refine absurd ?_ hne
    simp [modifyWord, setWord, ht]

/-- A fault on an address without an entry is served within the tables of `p`. -/
theorem fault_confined (hs : Sane root own s) (hr : Rooted own s) (hlive : (s.procs p).live = true)
    (hu : User root (vpn2 va)) (hnone : pteChecker va (s.procs p).pgdir s = none)
    (hrules : WordRules root W) (hw : Words W root s) :
    Holds AnyStop (fun r => Words W root r.2 ∧ Confined p s r.2)
      (allocPageHelper va p .swapable s) := by
  obtain ⟨d, hd⟩ := hr p hlive
  refine allocPageHelper_confined hs hr hd hu (Or.inl rfl) (fun k hk => ?_) hrules hw
  obtain ⟨r, hsome⟩ := hs.shape.pteChecker_some hk
  rw [hnone] at hsome
  cases hsome

/-- A load fault of `p` writes into the frames of `p` only, in each of its branches. -/
theorem handleLoadPageFault_confined (hs : Sane root own s) (hr : Rooted own s)
    (hlive : (s.procs p).live = true) (hu : User root (vpn2 va)) (hrules : WordRules root W)
    (hw : Words W root s) :
    Holds AnyStop (fun s' => Words W root s' ∧ Confined p s s') (handleLoadPageFault p va s) := by
  unfold handleLoadPageFault
  cases hc : pteChecker va (s.procs p).pgdir s with
  | none => exact Holds.bind (fault_confined hs hr hlive hu hc hrules hw) fun r h => h
  | some ti =>
      obtain ⟨t, i⟩ := ti
      obtain ⟨id, k, π, hid, rfl, rfl, hk, _, _, hout, _⟩ := fault_mapped hs hr hlive hu hc
      simp only
      split_ifs with hsd
      · obtain ⟨rfl, hnot⟩ := hout hsd
        exact swapIn_confined hs hr hid hk hnot hrules hw
      · trivial
      · exact touch_confined hs hr hid hrules hw (Or.inl rfl) like_accessed

/-- A store fault of `p` writes into the frames of `p` only, in each of its branches. -/
theorem handleStorePageFault_confined (hs : Sane root own s) (hr : Rooted own s) (hun : Unshared s)
    (hlive : (s.procs p).live = true) (hu : User root (vpn2 va)) (hrules : WordRules root W)
    (hw : Words W root s) :
    Holds AnyStop (fun s' => Words W root s' ∧ Confined p s s') (handleStorePageFault p va s) := by
  unfold handleStorePageFault
  cases hc : pteChecker va (s.procs p).pgdir s with
  | none => exact Holds.bind (fault_confined hs hr hlive hu hc hrules hw) fun r h => h
  | some ti =>
      obtain ⟨t, i⟩ := ti
      obtain ⟨id, k, π, hid, rfl, rfl, hk, _, _, hout, _⟩ := fault_mapped hs hr hlive hu hc
      simp only
      split_ifs with hsd
      · obtain ⟨rfl, hnot⟩ := hout hsd
        exact swapIn_confined hs hr hid hk hnot hrules hw
      · trivial
      · exact touch_confined hs hr hid hrules hw (Or.inr rfl) like_dirty
      · exact (copyOnWrite_refused hun _ _ _ _).mono fun _ h => h.elim

/-! ## Stores and new processes -/

/-- What is in a page that is no table does not matter. -/
theorem content_confined (hs : Sane root own s) (hr : Rooted own s) {r : Option (List Nat)}
    (hk : own k = some (p, r)) (hres : Res s k) (hleaf : ∀ π, r = some π → π.length = 3)
    (hw : Words W root s) (hwr : Writes (s.pages k).kva s s') :
    Words W root s' ∧ Confined p s s' := by
  have h := hs.shape
  have hworded : Worded W own s' := by
    refine (hw own h).same (fun q => by rw [hwr.procs]) fun id q π i hid hπ => ?_
    rw [hwr.pages]
    refine hwr.mem _ i (h.kva_ne hid hπ (by rw [hk]; simp) hres fun hcon => ?_)
    rw [hcon, hk] at hid
    cases hid
    have := hleaf π rfl
    omega
  refine ⟨hworded.words (hs.content hk hres hleaf hwr).shape
    (hr.kept (fun _ _ h => h) fun q => by rw [hwr.procs]),
    .of_mem (by rw [hwr.procs]) (fun x => ?_) (fun x => by rw [hwr.pages]) hwr.kernMemCurr
      fun t i hne => ?_⟩
  · unfold Res
    rw [hwr.pages]
  · by_cases ht : t = (s.pages k).kva
    · rw [ht]
      exact h.hasFrame hk hres
    · exact absurd (hwr.mem t i ht) hne

/-- A store of the program itself reaches the frames of `p` only. -/
theorem put_confined (hs : Sane root own s) (hr : Rooted own s) (hlive : (s.procs p).live = true)
    (hu : User root (vpn2 va)) (hw : Words W root s) (word : Pte) :
    Words W root (put p va word s) ∧ Confined p s (put p va word s) := by
  unfold put
  split
  · rename_i e htr
    split_ifs with hok
    · obtain ⟨t', hl, he, hp⟩ := translate_leads htr
      obtain ⟨d, hd⟩ := hr p hlive
      obtain ⟨id, hid, ht⟩ := hs.shape.of_leads hd hu hl
      rw [he, ht] at hp
      obtain ⟨k, π, hk, hπ, hres, hpage⟩ := hs.shape.mapped hid hp
      refine content_confined hs hr hk hres (fun π' hπ' => ?_) hw ?_
      · cases hπ'
        exact hπ
      · rw [he, ht, hpage]
        exact writes_setWord _ _ _ _
    · exact ⟨hw, .refl p s⟩
  · exact ⟨hw, .refl p s⟩

/-- Dropping all pages of `p` leaves the words of the others. -/
theorem Worded.reset (hw : Worded W own s) (p : Nat) (r : Proc) :
    Worded W (drop own p) (setProc p r s) := by
  intro y q π i hlive hy hπ
  obtain ⟨hy, hqp⟩ := drop_eq_some.mp hy
  rw [setProc_of_ne r s hqp] at hlive
  exact hw y q π i hlive hy hπ

/-- A new root table keeps the words. -/
theorem Worded.roots (hw : Worded W own s) (hrules : WordRules root W) (h : Shape root own s)
    (hx : own x = some (p, none)) (honly : ∀ y r, own y = some (p, r) → y = x)
    (hr : Roots root p x s s') : Worded W (Shape.link own x p []) s' := by
  intro y q π i hlive hy hπ
  rw [hr.procs] at hlive
  rw [hr.pages]
  rcases link_root_cases honly hy with ⟨rfl, rfl, rfl⟩ | ⟨hyx, _, hy⟩
  · rw [hr.self]
    exact hrules.top i
  · rw [hr.mem _ i (h.kva_ne hy hπ (by rw [hx]; simp) (h.loose x p hx).1 hyx)]
    exact hw y q π i hlive hy hπ

/-- Building a root table writes into the page that becomes the root. -/
theorem Roots.confined (h : Shape root own s) (hx : own x = some (p, none))
    (hr : Roots root p x s s') : Confined p s s' := by
  refine .of_mem (by rw [hr.procs]) hr.res (fun k => by rw [hr.pages]) hr.kernMemCurr
    fun t i hne => ?_
  by_cases ht : t = (s.pages x).kva
  · rw [ht]
    exact h.hasFrame hx (h.loose x p hx).1
  · exact absurd (hr.mem t i ht) hne

/-- The part of `do_exec` up to the shared kernel entries writes into the new root only. -/
theorem doExec_started_confined (hs : Sane root own s) (hr : Rooted own s)
    (hrules : WordRules root W) (hw : Words W root s) (p : Nat) :
    Holds AnyStop (fun r => Words W root (sharePgtable (r.2.pages r.1).kva
          (clearPgdir (r.2.pages r.1).kva
            (setProc p { r.2.procs p with pgdir := (r.2.pages r.1).kva } r.2))) ∧
        Confined p (setProc p ⟨true, 0, 0, maxPagetableNum, []⟩ s)
          (sharePgtable (r.2.pages r.1).kva (clearPgdir (r.2.pages r.1).kva
            (setProc p { r.2.procs p with pgdir := (r.2.pages r.1).kva } r.2))))
      (allocPagetable p .unswapable (setProc p ⟨true, 0, 0, maxPagetableNum, []⟩ s)) := by
  have hs₀ := reset_sane hs p
  have hw₀ := (hw own hs.shape).reset p ⟨true, 0, 0, maxPagetableNum, []⟩
  refine ((doExec_started hs p).both
    (allocPagetable_confined hs₀.toNear hs₀.settled (Or.inr rfl) hrules hw₀)).mono fun r hA => ?_
  obtain ⟨hstarted, hA, hW, hC⟩ := hA
  obtain ⟨x, s₁⟩ := r
  obtain rfl : x = s.pageId := hA.id
  have h₁ := hA.near.shape
  have hx : hold (drop own p) s.pageId p s.pageId = some (p, none) := hold_self _ _ _
  have honly : ∀ y r, hold (drop own p) s.pageId p y = some (p, r) → y = s.pageId := by
    intro y r hy
    by_contra hne
    rw [hold_other _ _ hne] at hy
    exact (drop_eq_some.mp hy).2 rfl
  have hroots : Roots root p s.pageId s₁ _ := sharePgtable_roots h₁.kernel
    (h₁.kva_ne_root (by
      change hold (drop own p) s.pageId p s.pageId ≠ none
      rw [hx]
      simp) (h₁.loose s.pageId p hx).1)
  exact ⟨(hW.roots hrules h₁ hx honly hroots).words hstarted.sane.shape (hstarted.rooted hr),
    hC.trans (hroots.confined h₁ hx)⟩

/-- The user stack's page is written inside `p`. -/
theorem stack_page_confined (hs : Sane root own s) (hr : Rooted own s) (hrules : WordRules root W)
    (hw : Words W root s) (p : Nat) (c : Nat → Pte) :
    Holds AnyStop (fun r => Words W root (setContent (r.2.pages r.1).kva c r.2) ∧
        Confined p s (setContent (r.2.pages r.1).kva c r.2))
      (allocPagetable p .unswapable s) := by
  refine (allocPagetable_confined hs.toNear hs.settled (Or.inr rfl) hrules
    (hw own hs.shape)).mono fun r hA => ?_
  obtain ⟨y, s₁⟩ := r
  obtain ⟨hA, hW, hC⟩ := hA
  obtain rfl : y = s.pageId := hA.id
  have hy : hold own s.pageId p s.pageId = some (p, none) := hold_self _ _ _
  have hr₁ : Rooted (hold own s.pageId p) s₁ := by
    refine hr.kept (fun z r hz => ?_) fun q => (hA.procs q).2
    rw [hold_other _ _ (Takes.hold_some hs.shape z hz), hz]
  have hs₁ : Sane root (hold own s.pageId p) s₁ := by
    refine ⟨hA.near, fun z q hz => ?_⟩
    by_cases hzy : z = s.pageId
    · rw [hzy, hA.status]
      decide
    · exact hA.settled z q hz hzy
  obtain ⟨hw', hC'⟩ := content_confined hs₁ hr₁ hy (hs₁.shape.loose _ p hy).1
    (fun π hπ => by cases hπ) (hW.words hs₁.shape hr₁) (writes_setContent _ c _)
  exact ⟨hw', hC.trans hC'⟩

/-- A pinned page is taken, mapped and filled inside `p`. -/
theorem pinned_page_confined (hs : Sane root own s) (hr : Rooted own s) {d : Nat}
    (hd : own d = some (p, some [])) (hu : User root (vpn2 va)) (hpin : Pinned own s p)
    (hrules : WordRules root W) (hw : Words W root s) (c : Nat → Pte) :
    Holds AnyStop
      (fun r => Words W root (setContent r.1 c r.2) ∧ Confined p s (setContent r.1 c r.2))
      (allocPageHelper va p .unswapable s) := by
  have hin : ∀ k, own k = some (p, some (pathOf va)) → Res s k := fun k hk => hpin.res hk
  refine ((allocPageHelper_mapped hs hd hu (Or.inr rfl) hin fun id _ hshared => ?_).both
    (allocPageHelper_confined hs hr hd hu (Or.inr rfl) hin hrules hw)).mono fun r h => ?_
  · obtain ⟨_, _, k, π, hk, _, hst, _⟩ := hshared
    rw [hpin k _ hk] at hst
    cases hst
  · obtain ⟨⟨own', x, hM⟩, hw₁, hC⟩ := h
    obtain ⟨hw', hC'⟩ := content_confined hM.sane (hr.grows hM.grows) hM.page hM.res
      (fun π hπ => by cases hπ; rfl) hw₁ (writes_setContent _ c _)
    rw [hM.kva]
    exact ⟨hw', hC.trans hC'⟩

/-- Loading an image writes into the frames of `p` only, by induction on its pages. -/
theorem loadTaskImg_confined (hrules : WordRules root W) (image : List (Nat × (Nat → Pte))) :
    ∀ {own : Owners} {s : State} {d : Nat}, Sane root own s → Rooted own s →
      own d = some (p, some []) → (∀ c ∈ image, User root (vpn2 c.1)) → Pinned own s p →
      Words W root s →
      Holds AnyStop (fun s' => Words W root s' ∧ Confined p s s') (loadTaskImg p image s) := by
  induction image with
  | nil =>
      intro own s d _ _ _ _ _ hw
      exact ⟨hw, .refl p s⟩
  | cons page rest ih =>
      intro own s d hs hr hd hu hpin hw
      unfold loadTaskImg
      have hup := hu page List.mem_cons_self
      refine Holds.bind ((pinned_page hs hd hup hpin page.2).both
        (pinned_page_confined hs hr hd hup hpin hrules hw page.2)) fun r h => ?_
      obtain ⟨⟨own₁, hs₁, hg₁, _⟩, hw₁, hC₁⟩ := h
      refine (ih hs₁ (hr.grows hg₁) (hg₁.kept d _ hd) (fun c hc => hu c (List.mem_cons_of_mem _ hc))
        (hpin.grows hg₁) hw₁).mono fun s' h => ?_
      exact ⟨h.1, hC₁.trans h.2⟩

/-- A new process is put into frames of its own. -/
theorem doExec_confined (hs : Sane root own s) (hr : Rooted own s) (p : Nat)
    (stack args : Nat → Pte) {image : List (Nat × (Nat → Pte))}
    (hstack : User root (vpn2 (userStackAddr - 4096)))
    (himage : ∀ c ∈ image, User root (vpn2 c.1)) (hrules : WordRules root W)
    (hw : Words W root s) :
    Holds AnyStop (fun s' => Words W root s' ∧
        Confined p (setProc p ⟨true, 0, 0, maxPagetableNum, []⟩ s) s')
      (doExec p stack args image s) := by
  unfold doExec
  refine Holds.bind ((doExec_started hs p).both (doExec_started_confined hs hr hrules hw p))
    fun r hA => ?_
  obtain ⟨hA, hw₁, hC₁⟩ := hA
  have hr₁ := hA.rooted hr
  refine Holds.bind ((stack_page hA.sane p stack).both
    (stack_page_confined hA.sane hr₁ hrules hw₁ p stack)) fun r₂ hB => ?_
  obtain ⟨⟨hs₂, hg₂, _⟩, hw₂, hC₂⟩ := hB
  have hr₂ := hr₁.grows hg₂
  have hd₂ := hg₂.kept _ _ hA.dir
  have hpin₂ := hA.pinned.grows hg₂
  refine Holds.bind ((pinned_page hs₂ hd₂ hstack hpin₂ args).both
    (pinned_page_confined hs₂ hr₂ hd₂ hstack hpin₂ hrules hw₂ args)) fun r₃ h => ?_
  obtain ⟨⟨own₃, hs₃, hg₃, _⟩, hw₃, hC₃⟩ := h
  refine (loadTaskImg_confined hrules image hs₃ (hr₂.grows hg₃) (hg₃.kept _ _ hd₂) himage
    (hpin₂.grows hg₃) hw₃).mono fun s' h => ?_
  exact ⟨h.1, ((hC₁.trans hC₂).trans hC₃).trans h.2⟩

end Mm
