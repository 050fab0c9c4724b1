import OslabRiscv.Mm.Runs
import OslabRiscv.Mm.Ledger

/-!
# Tables that only grow

Where no page can be evicted, an allocation takes a page nobody has had, and a walk
that makes what is missing writes to such pages and to entries that are not present.
So what is mapped stays mapped.  `Levels` says which pages are tables, and of which
level; it does not look at the entries of the last level, which may lead to pages of
other processes.
-/

namespace Mm

open Outcome

variable {root : Nat → Pte} {L L' : Nat → Nat → Prop} {s s' : State} {p q n l t i va pa : Nat}

/-- No page can be evicted. -/
def NoSwap (s : State) : Prop := ∀ id, (s.pages id).status ≠ .swapable

/-- The pages that are tables, with their levels: 0 for the root. -/
structure Levels (root : Nat → Pte) (L : Nat → Nat → Prop) (s : State) : Prop where
  given : ∀ t l, L t l → Given s t
  unique : ∀ t l l', L t l → L t l' → l = l'
  next : ∀ t l i, L t l → l < 2 → (l = 0 → User root i) → (s.mem t i).has present = true →
    L (pageOf (s.mem t i)) (l + 1)
  root : ∀ p, (s.procs p).live = true → L (s.procs p).pgdir 0

/-- Entries that are present stay as they are, and tables where they are. -/
structure Extends (s s' : State) : Prop where
  mem : ∀ t i, t < s.kernMemCurr → (s.mem t i).has present = true → s'.mem t i = s.mem t i
  kern : s.kernMemCurr ≤ s'.kernMemCurr
  procs : ∀ q, (s'.procs q).pgdir = (s.procs q).pgdir ∧ (s'.procs q).live = (s.procs q).live

theorem Extends.refl (s : State) : Extends s s := ⟨fun _ _ _ _ => rfl, le_rfl, fun _ => ⟨rfl, rfl⟩⟩

theorem Extends.trans {s'' : State} (h : Extends s s') (h' : Extends s' s'') : Extends s s'' := by
  refine ⟨fun t i ht hp => ?_, h.kern.trans h'.kern, fun q => ?_⟩
  · have hmem := h.mem t i ht hp
    rw [h'.mem t i (ht.trans_le h.kern) (by rw [hmem]; exact hp), hmem]
  · exact ⟨(h'.procs q).1.trans (h.procs q).1, (h'.procs q).2.trans (h.procs q).2⟩

/-- The page at `va` in the user part of a process is the one at the physical address `pa`, by
an entry of the table `t`. -/
structure Linked (root : Nat → Pte) (s : State) (p va pa t : Nat) : Prop where
  live : (s.procs p).live = true
  user : User root (vpn2 va)
  leads : Leads (s.procs p).pgdir va t s
  there : (s.mem t (vpn0 va)).has present = true
  page : (s.mem t (vpn0 va)).pfn * 4096 % 2 ^ 64 = pa

/-- The walk goes through tables. -/
theorem Levels.leads (h : Levels root L s) (hlive : (s.procs p).live = true)
    (hu : User root (vpn2 va)) (hl : Leads (s.procs p).pgdir va t s) :
    L (s.procs p).pgdir 0 ∧ L (pageOf (s.mem (s.procs p).pgdir (vpn2 va))) 1 ∧ L t 2 := by
  have hroot := h.root p hlive
  have hsecond := h.next _ 0 _ hroot (by decide) (fun _ => hu) hl.top
  have hthird := h.next _ 1 _ hsecond (by decide) (fun hc => by cases hc) hl.second
  rw [hl.third] at hthird
  exact ⟨hroot, hsecond, hthird⟩

/-- A page stays linked where the tables stay. -/
theorem Linked.same (h : Linked root s p va pa t) (hL : Levels root L s)
    (hmem : ∀ t l, L t l → ∀ i, (s.mem t i).has present = true → s'.mem t i = s.mem t i)
    (hprocs : (s'.procs p).pgdir = (s.procs p).pgdir ∧ (s'.procs p).live = (s.procs p).live) :
    Linked root s' p va pa t := by
  obtain ⟨hlive, hu, hleads, hp, hpa⟩ := h
  obtain ⟨h0, h1, h2⟩ := hL.leads hlive hu hleads
  have htop := hmem _ _ h0 _ hleads.top
  have hsecond := hmem _ _ h1 _ hleads.second
  have hlast := hmem _ _ h2 _ hp
  refine ⟨hprocs.2.trans hlive, hu, ⟨?_, ?_, ?_⟩, ?_, ?_⟩
  · rw [hprocs.1, htop]
    exact hleads.top
  · rw [hprocs.1, htop, hsecond]
    exact hleads.second
  · rw [hprocs.1, htop, hsecond]
    exact hleads.third
  · rw [hlast]
    exact hp
  · rw [hlast]
    exact hpa

/-- A page stays linked when entries are added. -/
theorem Linked.extends (h : Linked root s p va pa t) (hL : Levels root L s)
    (he : Extends s s') : Linked root s' p va pa t :=
  h.same hL (fun t l ht i hp => he.mem t i (hL.given t l ht).2.2 hp) (he.procs p)

/-! ## Allocating -/

/-- A page nobody has had. -/
structure Fresh (n : Nat) (s : State) (r : Nat × State) : Prop where
  kva : (r.2.pages r.1).kva = s.kernMemCurr
  kern : r.2.kernMemCurr = s.kernMemCurr + 4096
  mem : r.2.mem = s.mem
  procs : ∀ q, (r.2.procs q).pgdir = (s.procs q).pgdir ∧ (r.2.procs q).live = (s.procs q).live
  ledger : Ledger n r.2
  noSwap : NoSwap r.2

/-- Without evictions `allocPagetable` gives a page nobody has had. -/
theorem allocPagetable_fresh (h : Ledger n s) (hns : NoSwap s) (p : Nat) :
    Holds AnyStop (Fresh n s) (allocPagetable p .unswapable s) := by
  have hled := allocPagetable_taken h p .unswapable
  unfold allocPagetable at hled ⊢
  split_ifs at hled ⊢ with hfull
  · have hnone : (s.procs p).pagehead.find? (fun id => (s.pages id).status = .swapable) = none :=
      List.find?_eq_none.2 fun id _ hst => hns id (of_decide_eq_true hst)
    unfold doSwap getSwapPage
    rw [hnone]
    trivial
  · cases hx : findUnused (pageNum + 1) s with
    | error e => trivial
    | ok r =>
        obtain ⟨rfl, hroom⟩ := (findUnused_next h _).of_ok hx
        rw [hx] at hled
        have hcur : (s.kernMemCurr + 4095) / 4096 * 4096 = s.kernMemCurr := by
          have := h.room.2.1
          omega
        refine ⟨?_, ?_, rfl, fun q => ?_, hled.ledger, fun id => ?_⟩
        · simp [setProc, setPage, hcur]
        · simp [setProc, setPage, hcur]
        · by_cases hq : q = p
          · simp [setProc, setPage, hq]
          · simp [setProc, setPage, hq]
        · by_cases hid : id = s.pageId
          · simp [setProc, setPage, hid]
          · simp only [setProc, setPage, if_neg hid]
            exact hns id

/-- A page that has been taken leaves the tables as they are. -/
theorem Fresh.levels {r : Nat × State} (h : Fresh n s r) (hL : Levels root L s) :
    Levels root L r.2 := by
  refine ⟨fun t l ht => ?_, hL.unique, fun t l i ht hl hu hp => ?_, fun q hlive => ?_⟩
  · obtain ⟨hlo, halign, hlt⟩ := hL.given t l ht
    refine ⟨hlo, halign, ?_⟩
    rw [h.kern]
    omega
  · rw [h.mem] at hp ⊢
    exact hL.next t l i ht hl hu hp
  · rw [(h.procs q).1]
    rw [(h.procs q).2] at hlive
    exact hL.root q hlive

/-- A fresh page was no table. -/
theorem Fresh.extends {r : Nat × State} (h : Fresh n s r) : Extends s r.2 := by
  refine ⟨fun t i _ _ => by rw [h.mem], ?_, h.procs⟩
  rw [h.kern]
  omega

/-! ## Walking -/

/-- A new entry for a frame. -/
theorem newEntry {e : Pte} {a : BitVec 10} (ha : ∀ x : BitVec 10, (x ||| a) &&& present ≠ 0)
    {kva pfn : Nat} (hk : Frame kva) (hpfn : pfn = kva2pa kva / 4096) :
    (setAttribute a (setPfn pfn e)).has present = true ∧
      pageOf (setAttribute a (setPfn pfn e)) = kva := by
  constructor
  · rw [has_eq_true]
    simp only [setAttribute]
    exact ha _
  · refine hk.pageOf_eq ?_
    simp only [setAttribute, setPfn, hpfn]

/-- The next memory to be given out is a frame. -/
theorem Ledger.frameOf (h : Ledger n s) (hn : n ≤ 64) : Frame s.kernMemCurr := by
  have hr := h.room
  have hc := h.count
  simp only [Frame, freememKernel, kvaOffset, pageNum] at *
  omega

/-- Tables have been added, and no page can be evicted still. -/
structure Grown (root : Nat → Pte) (n : Nat) (L : Nat → Nat → Prop) (s : State)
    (L' : Nat → Nat → Prop) (s' : State) : Prop where
  levels : Levels root L' s'
  kept : ∀ t l, L t l → L' t l
  new : ∀ t l, L' t l → L t l ∨ s.kernMemCurr ≤ t
  ext : Extends s s'
  ledger : Ledger n s'
  noSwap : NoSwap s'

theorem Grown.trans {L'' : Nat → Nat → Prop} {s'' : State} (h : Grown root n L s L' s')
    (h' : Grown root n L' s' L'' s'') : Grown root n L s L'' s'' := by
  refine ⟨h'.levels, fun t l ht => h'.kept t l (h.kept t l ht), fun t l ht => ?_,
    h.ext.trans h'.ext, h'.ledger, h'.noSwap⟩
  rcases h'.new t l ht with ht | hge
  · exact h.new t l ht
  · exact Or.inr (h.ext.kern.trans hge)

/-- What the walk has found or made. -/
structure Stepped (root : Nat → Pte) (n t i l : Nat) (L : Nat → Nat → Prop) (s : State)
    (L' : Nat → Nat → Prop) (r : Nat × State) : Prop where
  grown : Grown root n L s L' r.2
  table : L' r.1 (l + 1)
  there : (r.2.mem t i).has present = true ∧ pageOf (r.2.mem t i) = r.1
  blank : r.2 = s ∨ ∀ j, r.2.mem r.1 j = ⟨0, 0⟩

/-- One step down the tables finds the next one or makes it. -/
theorem tableAt_stepped (h : Levels root L s) (hled : Ledger n s) (hn : n ≤ 64) (hns : NoSwap s)
    (ht : L t l) (hl : l < 2) (hu : l = 0 → User root i) (p : Nat) :
    Holds AnyStop (fun r => ∃ L', Stepped root n t i l L s L' r) (tableAt p t i s) := by
  unfold tableAt
  by_cases hp : (s.mem t i).has present = true
  · rw [if_pos hp]
    exact ⟨L, ⟨h, fun _ _ h => h, fun _ _ h => Or.inl h, .refl s, hled, hns⟩,
      h.next t l i ht hl hu hp, ⟨hp, rfl⟩, Or.inl rfl⟩
  · rw [if_neg hp]
    have habs : (s.mem t i).has present = false := by simpa using hp
    refine Holds.bind (allocPagetable_fresh hled hns p) fun r hr => ?_
    obtain ⟨id, s₁⟩ := r
    have hkva : (s₁.pages id).kva = s.kernMemCurr := hr.kva
    have htlow := (h.given t l ht).2.2
    have hne : t ≠ s.kernMemCurr := by omega
    obtain ⟨f, hf⟩ : ∃ f, f = s.kernMemCurr := ⟨_, rfl⟩
    have hframe : Frame f := hf ▸ hled.frameOf hn
    obtain ⟨pfn, hpfn⟩ : ∃ pfn, pfn = kva2pa f / 4096 := ⟨_, rfl⟩
    obtain ⟨e, he⟩ : ∃ e, e = setAttribute (present ||| user) (setPfn pfn (s.mem t i)) := ⟨_, rfl⟩
    obtain ⟨hepres, hepage⟩ : e.has present = true ∧ pageOf e = f := by
      rw [he]
      exact newEntry table_bits hframe hpfn
    -- What the step leaves in memory.
    obtain ⟨s', hs'⟩ : ∃ s', s' = modifyWord t i (setAttribute (present ||| user))
        (modifyWord t i (setPfn (kva2pa (s₁.pages id).kva / 4096))
          (clearPgdir (s₁.pages id).kva s₁)) := ⟨_, rfl⟩
    have hmem (a j : Nat) : s'.mem a j =
        if a = t ∧ j = i then e else if a = f then ⟨0, 0⟩ else s.mem a j := by
      rw [hs', hkva, ← hf, ← hpfn, he]
      have hmem₁ : s₁.mem = s.mem := hr.mem
      by_cases haj : a = t ∧ j = i
      · obtain ⟨rfl, rfl⟩ := haj
        simp [modifyWord, setWord, clearPgdir, setContent, hmem₁, hf, hne]
      · simp [modifyWord, setWord, clearPgdir, setContent, hmem₁, haj]
    have hkern : s'.kernMemCurr = s.kernMemCurr + 4096 := by
      rw [hs']
      exact hr.kern
    have hle : s.kernMemCurr ≤ s'.kernMemCurr := by omega
    have hlt : ∀ a l', L a l' → a ≠ f := by
      intro a l' ha
      have := (h.given a l' ha).2.2
      omega
    change ∃ L', Stepped root n t i l L s L' ((s₁.pages id).kva,
      modifyWord t i (setAttribute (present ||| user))
        (modifyWord t i (setPfn (kva2pa (s₁.pages id).kva / 4096))
          (clearPgdir (s₁.pages id).kva s₁)))
    rw [← hs', hkva, ← hf]
    refine ⟨fun a l' => L a l' ∨ a = f ∧ l' = l + 1, ⟨?_, fun _ _ h => Or.inl h,
      fun a l' ha => ?_, ?_, ?_, ?_⟩, Or.inr ⟨rfl, rfl⟩, ?_, Or.inr fun j => ?_⟩
    · constructor
      · rintro a l' (ha | ⟨rfl, rfl⟩)
        · obtain ⟨hlo, halign, hhi⟩ := h.given a l' ha
          exact ⟨hlo, halign, hhi.trans_le hle⟩
        · rw [hf]
          exact ⟨hled.room.1, hled.room.2.1, by
            change s.kernMemCurr < s'.kernMemCurr
            omega⟩
      · rintro a l₁ l₂ (h₁ | ⟨rfl, rfl⟩) (h₂ | ⟨h₂, rfl⟩)
        · exact h.unique a l₁ l₂ h₁ h₂
        · exact absurd h₂ (hlt a l₁ h₁)
        · exact absurd rfl (hlt _ l₂ h₂)
        · rfl
      · rintro a l' j (ha | ⟨rfl, rfl⟩) hl' hu' hpres
        · rw [hmem] at hpres ⊢
          by_cases haj : a = t ∧ j = i
          · obtain ⟨rfl, rfl⟩ := haj
            rw [if_pos ⟨rfl, rfl⟩, hepage]
            exact Or.inr ⟨rfl, by rw [h.unique a l' l ha ht]⟩
          · rw [if_neg haj, if_neg (hlt a l' ha)] at hpres ⊢
            exact Or.inl (h.next a l' j ha hl' hu' hpres)
        · rw [hmem, if_neg (fun hc => hlt t l ht hc.1.symm), if_pos rfl] at hpres
          exact absurd hpres (by decide)
      · intro q hlive
        rw [hs'] at hlive ⊢
        have hproc : (s₁.procs q).live = true := hlive
        rw [(hr.procs q).2] at hproc
        have hroot := h.root q hproc
        rw [← (hr.procs q).1] at hroot
        exact Or.inl hroot
    · rcases ha with ha | ⟨rfl, _⟩
      · exact Or.inl ha
      · exact Or.inr hf.ge
    · refine ⟨fun a j ha hpres => ?_, hle, fun q => ?_⟩
      · rw [hmem, if_neg (fun hc => ?_), if_neg (by omega)]
        rw [hc.1, hc.2, habs] at hpres
        cases hpres
      · rw [hs']
        exact hr.procs q
    · rw [hs']
      exact hr.ledger.same rfl rfl rfl rfl
    · rw [hs']
      exact hr.noSwap
    · rw [hmem, if_pos ⟨rfl, rfl⟩]
      exact ⟨hepres, hepage⟩
    · rw [hmem, if_neg (fun hc => hlt t l ht hc.1.symm), if_pos rfl]

/-- The entry of a leaf is present. -/
theorem leafAttr_present (x : BitVec 10) : (x ||| leafAttr) &&& present ≠ 0 := by
  revert x
  decide +kernel

/-- A new entry of the last level. -/
theorem Levels.leaf (h : Levels root L s) (ht : L t 2) {e : Pte}
    (hprocs : s'.procs = s.procs) (hkern : s'.kernMemCurr = s.kernMemCurr)
    (hmem : ∀ a j, s'.mem a j = if a = t ∧ j = i then e else s.mem a j) : Levels root L s' := by
  refine ⟨fun a l ha => ?_, h.unique, fun a l j ha hl hu hp => ?_, fun q hlive => ?_⟩
  · unfold Given
    rw [hkern]
    exact h.given a l ha
  · have hne : ¬(a = t ∧ j = i) := by
      rintro ⟨rfl, _⟩
      have := h.unique a l 2 ha ht
      omega
    rw [hmem, if_neg hne] at hp ⊢
    exact h.next a l j ha hl hu hp
  · rw [hprocs] at hlive ⊢
    exact h.root q hlive

/-- A page is put at an address of the user part that had none. -/
theorem buildPageHelper_links (h : Levels root L s) (hled : Ledger n s) (hn : n ≤ 64)
    (hns : NoSwap s) (hlive : (s.procs p).live = true) (hu : User root (vpn2 va))
    (hfree : pteChecker va (s.procs p).pgdir s = none) (hpa : pa % 4096 = 0) (hlt : pa < 2 ^ 64) :
    Holds AnyStop (fun s' => (∃ L', Grown root n L s L' s') ∧ ∃ t, Linked root s' p va pa t ∧
        (t < s.kernMemCurr → (s.mem t (vpn0 va)).has present = false))
      (buildPageHelper va p pa s) := by
  unfold buildPageHelper
  refine Holds.bind (tableAt_stepped h hled hn hns (h.root p hlive) (by decide) (fun _ => hu) p)
    fun r hr => ?_
  obtain ⟨second, s₁⟩ := r
  obtain ⟨L₁, h₁⟩ := hr
  refine Holds.bind (tableAt_stepped h₁.grown.levels h₁.grown.ledger hn h₁.grown.noSwap h₁.table
    (by decide) (fun hc => by cases hc) p) fun r hr => ?_
  obtain ⟨third, s₂⟩ := r
  obtain ⟨L₂, h₂⟩ := hr
  have hsecond : L₁ second 1 := h₁.table
  have hthird : L₂ third 2 := h₂.table
  -- Where the tables were there before, so that the address has none of its own.
  have habs : (s₂.mem third (vpn0 va)).has present = false := by
    rcases h₂.blank with heq₂ | hblank
    · have heq₂ : s₂ = s₁ := heq₂
      have hp₁ := h₂.there
      rcases h₁.blank with heq₁ | hblank
      · have heq₁ : s₁ = s := heq₁
        have ht := h₁.there
        simp only [heq₂, heq₁] at hp₁ ht ⊢
        unfold pteChecker at hfree
        rw [if_pos ht.1, ht.2, if_pos hp₁.1, hp₁.2] at hfree
        simp only at hfree
        split_ifs at hfree with hor
        simp only [Bool.or_eq_true, not_or, Bool.not_eq_true] at hor
        exact hor.1
      · have hz := hp₁.1
        simp only [heq₂] at hz
        rw [show s₁.mem second (vpn1 va) = ⟨0, 0⟩ from hblank _] at hz
        exact absurd hz (by decide)
    · rw [show s₂.mem third (vpn0 va) = ⟨0, 0⟩ from hblank _]
      decide
  have hlevels := h₂.grown.levels
  obtain ⟨pfn, hpfn⟩ : ∃ pfn, pfn = pa / 4096 := ⟨_, rfl⟩
  obtain ⟨e, he⟩ : ∃ e, e = setAttribute leafAttr (setPfn pfn (s₂.mem third (vpn0 va))) :=
    ⟨_, rfl⟩
  have hepres : e.has present = true := by
    rw [he, has_eq_true]
    exact leafAttr_present _
  have hepa : e.pfn * 4096 % 2 ^ 64 = pa := by
    have hval : e.pfn = pfn % 2 ^ 54 := by
      rw [he]
      simp only [setAttribute, setPfn]
    rw [hval, hpfn]
    omega
  obtain ⟨s', hs'⟩ : ∃ s', s' = modifyWord third (vpn0 va) (setAttribute leafAttr)
      (modifyWord third (vpn0 va) (setPfn (pa / 4096)) s₂) := ⟨_, rfl⟩
  have hmem (a j : Nat) :
      s'.mem a j = if a = third ∧ j = vpn0 va then e else s₂.mem a j := by
    rw [hs', he, hpfn]
    by_cases haj : a = third ∧ j = vpn0 va
    · simp [modifyWord, setWord, haj]
    · simp [modifyWord, setWord, haj]
  have hprocs : s'.procs = s₂.procs := by
    rw [hs']
    rfl
  have hkern : s'.kernMemCurr = s₂.kernMemCurr := by
    rw [hs']
    rfl
  have hext : Extends s₂ s' := by
    refine ⟨fun a j _ hp => ?_, hkern.ge, fun q => by rw [hprocs]; exact ⟨rfl, rfl⟩⟩
    rw [hmem, if_neg]
    rintro ⟨rfl, rfl⟩
    rw [habs] at hp
    cases hp
  have hgrown : Grown root n L₂ s₂ L₂ s' := by
    refine ⟨hlevels.leaf hthird hprocs hkern hmem, fun _ _ h => h, fun _ _ h => Or.inl h, hext,
      ?_, ?_⟩
    · rw [hs']
      exact h₂.grown.ledger.same rfl rfl rfl rfl
    · rw [hs']
      exact h₂.grown.noSwap
  have hall := h₁.grown.trans (h₂.grown.trans hgrown)
  have htop : s'.mem (s.procs p).pgdir (vpn2 va) = s₁.mem (s.procs p).pgdir (vpn2 va) := by
    refine (h₂.grown.ext.trans hext).mem _ _ ?_ h₁.there.1
    exact (h.given _ _ (h.root p hlive)).2.2.trans_le h₁.grown.ext.kern
  have hmid : s'.mem second (vpn1 va) = s₂.mem second (vpn1 va) := by
    refine hext.mem _ _ ?_ h₂.there.1
    exact (h₁.grown.levels.given _ _ hsecond).2.2.trans_le h₂.grown.ext.kern
  simp only
  rw [if_neg (by rw [habs]; decide)]
  rw [holds_ok]
  rw [← hs']
  have hleads : Leads (s'.procs p).pgdir va third s' := by
    refine ⟨?_, ?_, ?_⟩
    · rw [(hall.ext.procs p).1, htop]
      exact h₁.there.1
    · rw [(hall.ext.procs p).1, htop, show pageOf _ = second from h₁.there.2, hmid]
      exact h₂.there.1
    · rw [(hall.ext.procs p).1, htop, show pageOf _ = second from h₁.there.2, hmid]
      exact h₂.there.2
  have hleaf : s'.mem third (vpn0 va) = e := by rw [hmem, if_pos ⟨rfl, rfl⟩]
  refine ⟨⟨L₂, hall⟩, third, ⟨(hall.ext.procs p).2.trans hlive, hu, hleads, ?_, ?_⟩,
    fun hlt => ?_⟩
  · rw [hleaf]
    exact hepres
  · rw [hleaf]
    exact hepa
  · by_contra hp
    have hp : (s.mem third (vpn0 va)).has present = true := by simpa using hp
    rw [(h₁.grown.ext.trans h₂.grown.ext).mem _ _ hlt hp, hp] at habs
    cases habs

/-- What is in a page that is no table and was not there before does not matter. -/
theorem Grown.clear (h : Grown root n L s L' s') {kva : Nat} (hkva : ∀ l, ¬ L' kva l)
    (hge : s.kernMemCurr ≤ kva) : Grown root n L s L' (clearPgdir kva s') := by
  have hmem (a j : Nat) (ha : a ≠ kva) : (clearPgdir kva s').mem a j = s'.mem a j := by
    simp [clearPgdir, setContent, ha]
  refine ⟨⟨h.levels.given, h.levels.unique, fun a l j ha hl hu hp => ?_, h.levels.root⟩,
    h.kept, h.new, ⟨fun a j ha hp => ?_, h.ext.kern, h.ext.procs⟩, ?_, h.noSwap⟩
  · have hne : a ≠ kva := fun hc => hkva l (hc ▸ ha)
    rw [hmem a j hne] at hp ⊢
    exact h.levels.next a l j ha hl hu hp
  · rw [hmem a j (by omega)]
    exact h.ext.mem a j ha hp
  · exact h.ledger.same rfl rfl rfl rfl

/-! ## Where no page has been swapped -/

/-- The new table cannot be evicted. -/
theorem tableAt_noSwap (h : Ledger n s) (hns : NoSwap s) (p t i : Nat) :
    Holds AnyStop (fun r => Ledger n r.2 ∧ NoSwap r.2) (tableAt p t i s) := by
  unfold tableAt
  split_ifs
  · exact ⟨h, hns⟩
  · exact Holds.bind (allocPagetable_fresh h hns p) fun r hr =>
      ⟨hr.ledger.same rfl rfl rfl rfl, hr.noSwap⟩

/-- The new page cannot be evicted. -/
theorem allocPageHelper_noSwap (h : Ledger n s) (hns : NoSwap s) (va p : Nat) :
    Holds AnyStop (fun r => Ledger n r.2 ∧ NoSwap r.2)
      (allocPageHelper va p .unswapable s) := by
  refine (allocPageHelper_ledger h va p .unswapable).both ?_
  unfold allocPageHelper
  refine Holds.bind (tableAt_noSwap h hns p _ _) fun r hr => ?_
  refine Holds.bind (tableAt_noSwap hr.1 hr.2 p _ _) fun r' hr' => ?_
  obtain ⟨third, s'⟩ := r'
  simp only
  split_ifs
  · exact hr'.2
  · refine Holds.bind (allocPagetable_fresh hr'.1 hr'.2 p) fun r'' hr'' => ?_
    intro id
    by_cases hid : id = r''.1
    · simpa [modifyWord, setWord, setPage, hid] using hr''.noSwap r''.1
    · simpa [modifyWord, setWord, setPage, hid] using hr''.noSwap id

/-- None of an image's pages can, by induction on them. -/
theorem loadTaskImg_noSwap (p : Nat) (image : List (Nat × (Nat → Pte))) :
    ∀ {s : State}, Ledger n s → NoSwap s → Holds AnyStop NoSwap (loadTaskImg p image s) := by
  induction image with
  | nil =>
      intro s _ hns
      exact hns
  | cons page rest ih =>
      intro s h hns
      unfold loadTaskImg
      refine Holds.bind (allocPageHelper_noSwap h hns page.1 p) fun r hr => ih ?_ hr.2
      exact hr.1.same rfl rfl rfl rfl

/-- `do_exec` makes no page that can be evicted. -/
theorem doExec_noSwap (h : Ledger n s) (hns : NoSwap s) (p : Nat) (stack args : Nat → Pte)
    (image : List (Nat × (Nat → Pte))) :
    Holds AnyStop NoSwap (doExec p stack args image s) := by
  have hnew : Ledger n (setProc p ⟨true, 0, 0, maxPagetableNum, []⟩ s) :=
    h.setProc (fun id hid => by cases hid) (Or.inl rfl)
  unfold doExec
  refine Holds.bind (allocPagetable_fresh hnew hns p) fun r hr => ?_
  have hgiven : freememKernel ≤ (r.2.pages r.1).kva ∧ (r.2.pages r.1).kva < r.2.kernMemCurr := by
    rw [hr.kva, hr.kern]
    exact ⟨hnew.room.1, Nat.lt_add_of_pos_right (by decide)⟩
  have hdir := hr.ledger.setProc (p := p)
    (r := { r.2.procs p with pgdir := (r.2.pages r.1).kva }) (hr.ledger.listed p) (Or.inr hgiven)
  refine Holds.bind (allocPagetable_fresh (n := n) ?_ ?_ p) fun r' hr' => ?_
  · exact hdir.same rfl rfl rfl rfl
  · exact hr.noSwap
  refine Holds.bind (allocPageHelper_noSwap (n := n) ?_ ?_ _ p) fun q hq => ?_
  · exact hr'.ledger.same rfl rfl rfl rfl
  · exact hr'.noSwap
  refine loadTaskImg_noSwap (n := n) p image ?_ ?_
  · exact hq.1.same rfl rfl rfl rfl
  · exact hq.2

/-- Processes are started and store where they can. -/
def Starts : Event → Prop
  | .exec _ _ _ _ | .put _ _ _ => True
  | .load _ _ | .store _ _ | .snapshot _ _ => False

/-- The step lemma of runs without evictions. -/
theorem handle_noSwap (h : Ledger n s) (hns : NoSwap s) {e : Event} (he : Starts e) :
    Holds AnyStop (fun s' => Ledger n s' ∧ NoSwap s') (handle e s) := by
  cases e with
  | exec p stack args image =>
      exact (doExec_ledger h p stack args image).both (doExec_noSwap h hns p stack args image)
  | put p va word =>
      have hled := handle_ledger h (.put p va word)
      refine ⟨hled, ?_⟩
      split_ifs
      · unfold put
        split
        · split_ifs
          · exact hns
          · exact hns
        · exact hns
      · exact hns
  | load p va => exact he.elim
  | store p va => exact he.elim
  | snapshot p va => exact he.elim

/-- The run lemma, by induction. -/
theorem run_noSwap {es : List Event} (hes : ∀ e ∈ es, Starts e) :
    ∀ {s s' : State}, Ledger n s → NoSwap s → run handle es s = .ok s' →
      Ledger n s' ∧ NoSwap s' := by
  induction es with
  | nil =>
      intro s s' h hns hrun
      cases hrun
      exact ⟨h, hns⟩
  | cons e es ih =>
      intro s s' h hns hrun
      obtain ⟨s₁, hs₁, hrest⟩ := run_cons hrun
      obtain ⟨h₁, hns₁⟩ := (handle_noSwap h hns (hes e List.mem_cons_self)).of_ok hs₁
      exact ih (fun e' he' => hes e' (List.mem_cons_of_mem _ he')) h₁ hns₁ hrest

/-- The tables of the shape. -/
theorem Good.levels (h : Good root s) : ∃ L, Levels root L s := by
  obtain ⟨own, hs, hr⟩ := h
  have hshape := hs.shape
  refine ⟨fun t l => ∃ id q π, own id = some (q, some π) ∧ π.length = l ∧ l ≤ 2 ∧
    t = (s.pages id).kva, ?_, ?_, ?_, fun q hq => ?_⟩
  · rintro t l ⟨id, q, π, hid, hlen, hl, rfl⟩
    exact hshape.frame id (by rw [hid]; simp) (hshape.table_res hid (by omega))
  · rintro t l l' ⟨id, q, π, hid, hlen, hl, rfl⟩ ⟨id', q', π', hid', hlen', hl', heq⟩
    have hsame := hshape.frame_inj id id' (by rw [hid]; simp) (by rw [hid']; simp)
      (hshape.table_res hid (by omega)) (hshape.table_res hid' (by omega)) heq
    rw [hsame, hid'] at hid
    cases hid
    exact hlen.symm.trans hlen'
  · rintro t l i ⟨id, q, π, hid, hlen, hl, rfl⟩ hlt hu hp
    have hnil : π = [] → User root i := fun hc => hu (by rw [← hlen, hc]; rfl)
    rcases hshape.slot id q π i hid (by omega) hnil with ⟨hor, _⟩ | ⟨k, hk, hf⟩
    · rcases hor with ⟨habs, _⟩ | ⟨hlast, _⟩
      · rw [habs] at hp
        cases hp
      · omega
    · rcases hf with ⟨_, _, hpage, _⟩ | ⟨_, habs, _⟩
      · exact ⟨k, q, i :: π, hk, by simp [hlen], by omega, hpage⟩
      · rw [habs] at hp
        cases hp
  · obtain ⟨d, hd⟩ := hr q hq
    exact ⟨d, q, [], hd, rfl, by decide, hshape.dir d q hd⟩

end Mm
