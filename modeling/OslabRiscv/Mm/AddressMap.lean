import OslabRiscv.Mm.Mappings
import OslabRiscv.Mm.Coherence

/-!
# The address map

`pte_checker`, `get_pte`, `alloc_page_helper` and `build_page_helper` each walk the three
levels on their own.  Over a page table that is a tree (`Sv39`), with room for three pages,
the makers change the one entry of their address and no other page number's.
-/

namespace Mm

open Outcome

variable {s s' : State} {p n va va₂ d id : Nat} {st : PageStatus}

/-! ## Taking a page -/

/-- At least `n` unused descriptors lie ahead of the search. -/
def Ahead (n : Nat) (s : State) : Prop :=
  n ≤ ((Finset.range pageNum).filter fun id => s.pageId ≤ id ∧ (s.pages id).status = .unused).card

/-- The page `allocPage` hands out next. -/
def nextPage (s : State) : Nat := (s.kernMemCurr + 4095) / 4096 * 4096

/-- With unused descriptors ahead there is a first one. -/
theorem Ahead.some_unused (h : Ahead (n + 1) s) :
    ∃ id, id < pageNum ∧ s.pageId ≤ id ∧ (s.pages id).status = .unused := by
  obtain ⟨id, hid⟩ := Finset.card_pos.mp (lt_of_lt_of_le (Nat.succ_pos n) h)
  obtain ⟨hlt, hle, hun⟩ := Finset.mem_filter.mp hid
  exact ⟨id, Finset.mem_range.mp hlt, hle, hun⟩

/-- Passing one descriptor costs at most that one. -/
theorem Ahead.pass (h : Ahead (n + 1) s) : Ahead n { s with pageId := s.pageId + 1 } := by
  have hsub : ((Finset.range pageNum).filter fun id =>
      s.pageId ≤ id ∧ (s.pages id).status = .unused).erase s.pageId ⊆
      (Finset.range pageNum).filter fun id =>
        s.pageId + 1 ≤ id ∧ (s.pages id).status = .unused := by
    intro id hid
    obtain ⟨hne, hmem⟩ := Finset.mem_erase.mp hid
    obtain ⟨hlt, hle, hun⟩ := Finset.mem_filter.mp hmem
    exact Finset.mem_filter.mpr ⟨hlt, by omega, hun⟩
  have hcard := Finset.card_le_card hsub
  have herase := Finset.pred_card_le_card_erase (a := s.pageId)
    (s := (Finset.range pageNum).filter fun id => s.pageId ≤ id ∧ (s.pages id).status = .unused)
  unfold Ahead at h ⊢
  exact le_trans (by omega) (le_trans herase hcard)

/-- A descriptor in use costs nothing. -/
theorem Ahead.skip (h : Ahead n s) (hused : (s.pages s.pageId).status ≠ .unused) :
    Ahead n { s with pageId := s.pageId + 1 } := by
  refine le_trans h (Finset.card_le_card fun id hid => ?_)
  obtain ⟨hlt, hle, hun⟩ := Finset.mem_filter.mp hid
  refine Finset.mem_filter.mpr ⟨hlt, ?_, hun⟩
  rcases Nat.lt_or_eq_of_le hle with hlt | rfl
  · exact hlt
  · exact absurd hun hused

/-- The search finds one of them, and leaves the others ahead. -/
theorem findUnused_ahead (fuel : Nat) (h : Ahead (n + 1) s) (hf : pageNum < fuel + s.pageId) :
    ∃ id, findUnused fuel s = .ok (id, { s with pageId := id + 1 }) ∧
      Ahead n { s with pageId := id + 1 } := by
  obtain ⟨k, hk, hle, hun⟩ := h.some_unused
  induction fuel generalizing s with
  | zero => omega
  | succ fuel ih =>
      unfold findUnused
      rw [if_neg (by omega)]
      by_cases hfound : (s.pages s.pageId).status = .unused
      · rw [if_pos hfound]
        exact ⟨s.pageId, rfl, h.pass⟩
      · rw [if_neg hfound]
        have hne : s.pageId ≠ k := by
          rintro rfl
          exact hfound hun
        rw [if_neg (by omega)]
        exact ih (h.skip hfound) (by simp only; omega) (by simp only; omega) hun

/-- Process `p` can be given `n` more pages without an eviction, and they are ones that page
table entries can hold. -/
structure Spare (n p : Nat) (s : State) : Prop where
  bound : (s.procs p).pagenum + n ≤ (s.procs p).upbound
  ahead : Ahead n s
  heap : kvaOffset ≤ s.kernMemCurr ∧ nextPage s + 4096 * n ≤ 2 ^ 64

/-- Who can be given more pages can be given fewer. -/
theorem Spare.less (h : Spare (n + 1) p s) : Spare n p s := by
  obtain ⟨hb, ha, hlo, hhi⟩ := h
  exact ⟨by omega, Nat.le_of_succ_le ha, hlo, by omega⟩

/-- The next page is one that an entry can hold. -/
theorem Spare.frame (h : Spare (n + 1) p s) : Frame (nextPage s) := by
  obtain ⟨-, -, hlo, hhi⟩ := h
  unfold nextPage at hhi ⊢
  unfold Frame kvaOffset at *
  omega

/-- The next page is not handed out yet. -/
theorem le_nextPage (s : State) : s.kernMemCurr ≤ nextPage s := by
  unfold nextPage
  omega

/-- After a page the next one follows. -/
theorem nextPage_next (h : s'.kernMemCurr = nextPage s + 4096) :
    nextPage s' = nextPage s + 4096 := by
  unfold nextPage at h ⊢
  omega

/-- A page has been taken, and `n` more can be. -/
structure Took (n p : Nat) (s : State) (r : Nat × State) : Prop where
  kva : (r.2.pages r.1).kva = nextPage s
  mem : r.2.mem = s.mem
  kern : r.2.kernMemCurr = nextPage s + 4096
  pgdir : (r.2.procs p).pgdir = (s.procs p).pgdir
  spare : Spare n p r.2

/-- `allocPagetable` gives a page without an eviction. -/
theorem allocPagetable_took (h : Spare (n + 1) p s) (st : PageStatus) :
    ∃ r, allocPagetable p st s = .ok r ∧ Took n p s r := by
  obtain ⟨hb, ha, hlo, hhi⟩ := h
  obtain ⟨id, hfind, hahead⟩ := findUnused_ahead (pageNum + 1) ha (by omega)
  have hle := le_nextPage s
  unfold allocPagetable
  rw [if_neg (by omega), hfind]
  refine ⟨_, rfl, ?_, rfl, rfl, ?_, ?_, ?_, ?_, ?_⟩
  · simp [setProc, setPage, nextPage]
  · simp [setProc, setPage]
  · simp [setProc, setPage]
    omega
  · refine le_trans hahead (Finset.card_le_card fun k hk => ?_)
    obtain ⟨hlt, hle, hun⟩ := Finset.mem_filter.mp hk
    refine Finset.mem_filter.mpr ⟨hlt, hle, ?_⟩
    have hne : k ≠ id := by
      simp only at hle
      omega
    simp only [setProc, setPage, if_neg hne]
    exact hun
  · exact hlo.trans (hle.trans (Nat.le_add_right _ 4096))
  · rw [nextPage_next (s := s) rfl]
    omega

/-! ## One level -/

/-- What `tableAt` leaves: the entry leads to the page returned, which is the old one or a new
one without entries. -/
structure Reached (n p t i : Nat) (s : State) (r : Nat × State) : Prop where
  there : (r.2.mem t i).has present = true ∧ pageOf (r.2.mem t i) = r.1
  old : (s.mem t i).has present = true → r.2 = s
  new : (s.mem t i).has present = false →
    s.kernMemCurr ≤ r.1 ∧ r.1 < r.2.kernMemCurr ∧ ∀ j, r.2.mem r.1 j = ⟨0, 0⟩
  same : ∀ a j, a < s.kernMemCurr → ¬(a = t ∧ j = i) → r.2.mem a j = s.mem a j
  kern : s.kernMemCurr ≤ r.2.kernMemCurr
  pgdir : (r.2.procs p).pgdir = (s.procs p).pgdir
  spare : Spare n p r.2

/-- A step down the tables reaches the next one, old or new. -/
theorem tableAt_reached {t i : Nat} (h : Spare (n + 1) p s) (ht : t < s.kernMemCurr) :
    ∃ r, tableAt p t i s = .ok r ∧ Reached n p t i s r := by
  unfold tableAt
  by_cases hp : (s.mem t i).has present = true
  · rw [if_pos hp]
    refine ⟨_, rfl, ⟨hp, rfl⟩, fun _ => rfl, fun habs => ?_, fun _ _ _ _ => rfl, le_rfl, rfl,
      h.less⟩
    rw [hp] at habs
    cases habs
  · rw [if_neg hp]
    obtain ⟨⟨id, s₁⟩, halloc, hkva, hmem, hkern, hpgdir, hspare⟩ := allocPagetable_took h .unswapable
    simp only at hkva hmem hkern hpgdir hspare
    have hle := le_nextPage s
    obtain ⟨f, hf⟩ : ∃ f, f = nextPage s := ⟨_, rfl⟩
    have hframe : Frame f := hf ▸ h.frame
    rw [← hf] at hkva hkern hle
    obtain ⟨e, he⟩ : ∃ e, e = setAttribute (present ||| user) (setPfn (kva2pa f / 4096) (s.mem t i)) :=
      ⟨_, rfl⟩
    obtain ⟨hepres, hepage⟩ : e.has present = true ∧ pageOf e = f := by
      rw [he]
      exact newEntry table_bits hframe rfl
    obtain ⟨s', hs'⟩ : ∃ s', s' = modifyWord t i (setAttribute (present ||| user))
        (modifyWord t i (setPfn (kva2pa f / 4096)) (clearPgdir f s₁)) := ⟨_, rfl⟩
    have hmem' (a j : Nat) : s'.mem a j =
        if a = t ∧ j = i then e else if a = f then ⟨0, 0⟩ else s.mem a j := by
      rw [hs', he]
      by_cases haj : a = t ∧ j = i
      · obtain ⟨rfl, rfl⟩ := haj
        have hne : a ≠ f := by omega
        simp [modifyWord, setWord, clearPgdir, setContent, hmem, hne]
      · simp [modifyWord, setWord, clearPgdir, setContent, hmem, haj]
    have hkern' : s'.kernMemCurr = f + 4096 := by
      rw [hs']
      exact hkern
    refine ⟨(f, s'), ?_, ⟨?_, ?_⟩, fun hcon => absurd hcon hp, fun _ => ⟨hle, ?_, fun j => ?_⟩,
      fun a j ha hne => ?_, ?_, ?_, ?_⟩
    · rw [halloc, hs', ← hkva]
      rfl
    · rw [hmem', if_pos ⟨rfl, rfl⟩]
      exact hepres
    · rw [hmem', if_pos ⟨rfl, rfl⟩]
      exact hepage
    · change f < s'.kernMemCurr
      omega
    · rw [hmem', if_neg (by omega), if_pos rfl]
    · rw [hmem', if_neg hne, if_neg (by omega)]
    · change s.kernMemCurr ≤ s'.kernMemCurr
      omega
    · rw [hs']
      exact hpgdir
    · rw [hs']
      exact ⟨hspare.bound, hspare.ahead, hspare.heap⟩

/-! ## The tree -/

/-- Entry `i` of page `t` leads to the table `u`; the hardware does not take it for a leaf. -/
structure Points (s : State) (t i u : Nat) : Prop where
  there : (s.mem t i).has present = true
  inner : (s.mem t i).has (read ||| write ||| exec) = false
  page : pageOf (s.mem t i) = u

/-- The tables under the root `d` are different pages, and all of them have been handed out. -/
structure Sv39 (d : Nat) (s : State) : Prop where
  second_ne : ∀ i t, Points s d i t → t ≠ d
  second_inj : ∀ i j t, Points s d i t → Points s d j t → i = j
  third_ne : ∀ i t j u, Points s d i t → Points s t j u → u ≠ d
  third_second : ∀ i t j u k, Points s d i t → Points s t j u → ¬Points s d k u
  third_inj : ∀ i t j i' t' j' u, Points s d i t → Points s t j u → Points s d i' t' →
    Points s t' j' u → i = i' ∧ j = j'
  root_low : d < s.kernMemCurr
  second_low : ∀ i t, Points s d i t → t < s.kernMemCurr
  third_low : ∀ i t j u, Points s d i t → Points s t j u → u < s.kernMemCurr

/-- There is no leaf on the upper levels of the path of `va`. -/
structure Plain (d va : Nat) (s : State) : Prop where
  top : (s.mem d (vpn2 va)).has present = true →
    (s.mem d (vpn2 va)).has (read ||| write ||| exec) = false
  second : ∀ t, Points s d (vpn2 va) t → (s.mem t (vpn1 va)).has present = true →
    (s.mem t (vpn1 va)).has (read ||| write ||| exec) = false

/-- A present entry of the root leads to a table. -/
theorem Plain.points (h : Plain d va s) (hp : (s.mem d (vpn2 va)).has present = true) :
    Points s d (vpn2 va) (pageOf (s.mem d (vpn2 va))) := ⟨hp, h.top hp, rfl⟩

/-- A present entry of the second level leads to a table. -/
theorem Plain.next {t : Nat} (h : Plain d va s) (ht : Points s d (vpn2 va) t)
    (hp : (s.mem t (vpn1 va)).has present = true) :
    Points s t (vpn1 va) (pageOf (s.mem t (vpn1 va))) := ⟨hp, h.second t ht hp, rfl⟩

/-- Both walks for `va` come to the same entry, with the same content. -/
structure SameEntry (d va : Nat) (s s' : State) : Prop where
  checker : pteChecker va d s' = pteChecker va d s
  word : ∀ t i, pteChecker va d s = some (t, i) → s'.mem t i = s.mem t i

/-- Two walks that both end early. -/
theorem SameEntry.of_none (h : pteChecker va d s = none) (h' : pteChecker va d s' = none) :
    SameEntry d va s s' := by
  refine ⟨h'.trans h.symm, fun t i hcon => ?_⟩
  rw [h] at hcon
  cases hcon

/-- A walk reads three entries. -/
theorem SameEntry.of_words (htop : s'.mem d (vpn2 va) = s.mem d (vpn2 va))
    (hmid : ∀ t, (s.mem d (vpn2 va)).has present = true → pageOf (s.mem d (vpn2 va)) = t →
      s'.mem t (vpn1 va) = s.mem t (vpn1 va) ∧
        ∀ u, (s.mem t (vpn1 va)).has present = true → pageOf (s.mem t (vpn1 va)) = u →
          s'.mem u (vpn0 va) = s.mem u (vpn0 va)) : SameEntry d va s s' := by
  by_cases hp : (s.mem d (vpn2 va)).has present = true
  · obtain ⟨hsecond, hlast⟩ := hmid _ hp rfl
    by_cases hp' : (s.mem (pageOf (s.mem d (vpn2 va))) (vpn1 va)).has present = true
    · have hword := hlast _ hp' rfl
      constructor
      · simp only [pteChecker, htop, hsecond, hword]
      · intro t i hsome
        obtain ⟨hi, hl, -⟩ := leads_of_pteChecker hsome
        simp only at hi hl
        rw [hi, ← hl.third]
        exact hword
    · refine .of_none ?_ ?_
      · simp only [pteChecker, hp, hp', if_true]
        rfl
      · simp only [pteChecker, htop, hsecond, hp, hp', if_true]
        rfl
  · refine .of_none ?_ ?_
    · simp only [pteChecker, hp]
      rfl
    · simp only [pteChecker, htop, hp]
      rfl

/-- Addresses below `2 ^ 39` with the same three indices are on one page. -/
theorem page_of_vpns (h : va < 2 ^ 39) (h' : va₂ < 2 ^ 39) (h2 : vpn2 va₂ = vpn2 va)
    (h1 : vpn1 va₂ = vpn1 va) (h0 : vpn0 va₂ = vpn0 va) : va₂ / 4096 = va / 4096 := by
  unfold vpn2 at h2
  unfold vpn1 at h1
  unfold vpn0 at h0
  omega

/-! ## The walk -/

/-- What the walk that makes what is missing leaves: the tables `u` and `t` on the path of
`va`, old or new. -/
structure Walked (p d va : Nat) (s : State) (u t : Nat) (s' : State) : Prop where
  top : (s'.mem d (vpn2 va)).has present = true ∧ pageOf (s'.mem d (vpn2 va)) = u
  mid : (s'.mem u (vpn1 va)).has present = true ∧ pageOf (s'.mem u (vpn1 va)) = t
  same : ∀ a j, a < s.kernMemCurr → ¬(a = d ∧ j = vpn2 va) → ¬(a = u ∧ j = vpn1 va) →
    s'.mem a j = s.mem a j
  oldTop : (s.mem d (vpn2 va)).has present = true → s'.mem d (vpn2 va) = s.mem d (vpn2 va)
  newTop : (s.mem d (vpn2 va)).has present = false →
    s.kernMemCurr ≤ u ∧ ∀ j, j ≠ vpn1 va → s'.mem u j = ⟨0, 0⟩
  oldMid : (s.mem d (vpn2 va)).has present = true → (s.mem u (vpn1 va)).has present = true → s' = s
  newMid : ((s.mem d (vpn2 va)).has present = true → (s.mem u (vpn1 va)).has present = false) →
    s.kernMemCurr ≤ t ∧ u < t ∧ ∀ j, s'.mem t j = ⟨0, 0⟩
  kern : s.kernMemCurr ≤ s'.kernMemCurr
  pgdir : (s'.procs p).pgdir = (s.procs p).pgdir
  spare : Spare 1 p s'

/-- The walk that makes what is missing, over both upper levels. -/
theorem walked (h : Sv39 d s) (hp : Plain d va s) (hspare : Spare 3 p s) :
    ∃ u s₁ t s', tableAt p d (vpn2 va) s = .ok (u, s₁) ∧ tableAt p u (vpn1 va) s₁ = .ok (t, s') ∧
      Walked p d va s u t s' := by
  obtain ⟨⟨u, s₁⟩, hu, h₁⟩ := tableAt_reached (i := vpn2 va) hspare h.root_low
  have hlow : u < s₁.kernMemCurr := by
    by_cases htop : (s.mem d (vpn2 va)).has present = true
    · obtain rfl : s₁ = s := h₁.old htop
      have hpage : pageOf (s₁.mem d (vpn2 va)) = u := h₁.there.2
      rw [← hpage]
      exact h.second_low _ _ (hp.points htop)
    · exact (h₁.new (by simpa using htop)).2.1
  obtain ⟨⟨t, s'⟩, ht, h₂⟩ := tableAt_reached (i := vpn1 va) h₁.spare hlow
  have hdu : d ≠ u := by
    by_cases htop : (s.mem d (vpn2 va)).has present = true
    · obtain rfl : s₁ = s := h₁.old htop
      have hpage : pageOf (s₁.mem d (vpn2 va)) = u := h₁.there.2
      rw [← hpage]
      exact (h.second_ne _ _ (hp.points htop)).symm
    · have hge : s.kernMemCurr ≤ u := (h₁.new (by simpa using htop)).1
      have := h.root_low
      omega
  have hd₁ : d < s₁.kernMemCurr := h.root_low.trans_le h₁.kern
  have htop₂ : s'.mem d (vpn2 va) = s₁.mem d (vpn2 va) :=
    h₂.same d _ hd₁ fun hc => hdu hc.1
  refine ⟨u, s₁, t, s', hu, ht, ⟨?_, h₂.there, fun a j ha hne hne' => ?_, fun hold => ?_,
    fun habs => ⟨(h₁.new habs).1, fun j hj => ?_⟩, fun hold hold' => ?_, fun hmid => ?_,
    h₁.kern.trans h₂.kern, h₂.pgdir.trans h₁.pgdir, h₂.spare⟩⟩
  · rw [htop₂]
    exact h₁.there
  · rw [← h₁.same a j ha hne]
    exact h₂.same a j (ha.trans_le h₁.kern) hne'
  · obtain rfl : s₁ = s := h₁.old hold
    exact htop₂
  · rw [← (h₁.new habs).2.2 j]
    exact h₂.same u j hlow fun hc => hj hc.2
  · obtain rfl : s₁ = s := h₁.old hold
    exact h₂.old hold'
  · have habs : (s₁.mem u (vpn1 va)).has present = false := by
      by_cases htop : (s.mem d (vpn2 va)).has present = true
      · obtain rfl : s₁ = s := h₁.old htop
        exact hmid htop
      · rw [(h₁.new (by simpa using htop)).2.2]
        rfl
    obtain ⟨hge, -, hblank⟩ := h₂.new habs
    exact ⟨h₁.kern.trans hge, hlow.trans_le hge, hblank⟩

section Walked

variable {u t : Nat}

/-- The second table was there if its entry was present. -/
theorem Walked.second (hw : Walked p d va s u t s') (hp : Plain d va s)
    (htop : (s.mem d (vpn2 va)).has present = true) : Points s d (vpn2 va) u := by
  have hpage := hw.top.2
  rw [hw.oldTop htop] at hpage
  exact hpage ▸ hp.points htop

/-- The third table was there if both entries were present. -/
theorem Walked.third (hw : Walked p d va s u t s') (hp : Plain d va s)
    (htop : (s.mem d (vpn2 va)).has present = true)
    (hmid : (s.mem u (vpn1 va)).has present = true) : Points s u (vpn1 va) t := by
  have hpage := hw.mid.2
  rw [hw.oldMid htop hmid] at hpage
  exact hpage ▸ hp.next (hw.second hp htop) hmid

/-- Whether the last table is an old one. -/
theorem Walked.cases (hw : Walked p d va s u t s') (hp : Plain d va s) :
    (∃ i, Points s d i u ∧ Points s u (vpn1 va) t ∧ i = vpn2 va) ∨
      (s.kernMemCurr ≤ t ∧ u < t ∧ ∀ j, s'.mem t j = ⟨0, 0⟩) := by
  by_cases htop : (s.mem d (vpn2 va)).has present = true
  · by_cases hmid : (s.mem u (vpn1 va)).has present = true
    · exact Or.inl ⟨_, hw.second hp htop, hw.third hp htop hmid, rfl⟩
    · exact Or.inr (hw.newMid fun _ => by simpa using hmid)
  · exact Or.inr (hw.newMid fun hcon => absurd hcon htop)

/-- The three tables are different. -/
theorem Walked.apart (hw : Walked p d va s u t s') (h : Sv39 d s) (hp : Plain d va s) :
    u ≠ d ∧ t ≠ d ∧ t ≠ u := by
  have hroot := h.root_low
  have hu : u ≠ d := by
    by_cases htop : (s.mem d (vpn2 va)).has present = true
    · exact h.second_ne _ _ (hw.second hp htop)
    · have := (hw.newTop (by simpa using htop)).1
      omega
  refine ⟨hu, ?_⟩
  rcases hw.cases hp with ⟨i, hi, ht, -⟩ | ⟨hge, hlt, -⟩
  · refine ⟨h.third_ne _ _ _ _ hi ht, ?_⟩
    rintro rfl
    exact h.third_second _ _ _ _ i hi ht hi
  · omega

/-- Another table of the second level is not on the path. -/
theorem Walked.second_other (hw : Walked p d va s u t s') (h : Sv39 d s) (hp : Plain d va s)
    {i a : Nat} (ha : Points s d i a) (hi : i ≠ vpn2 va) :
    a < s.kernMemCurr ∧ a ≠ d ∧ a ≠ u ∧ a ≠ t := by
  have hlow := h.second_low _ _ ha
  refine ⟨hlow, h.second_ne _ _ ha, ?_, ?_⟩
  · rintro rfl
    by_cases htop : (s.mem d (vpn2 va)).has present = true
    · exact hi (h.second_inj _ _ _ ha (hw.second hp htop))
    · have := (hw.newTop (by simpa using htop)).1
      omega
  · rintro rfl
    rcases hw.cases hp with ⟨k, hk, ht, -⟩ | ⟨hge, -, -⟩
    · exact h.third_second _ _ _ _ i hk ht ha
    · omega

/-- Another table of the last level is not on the path. -/
theorem Walked.third_other (hw : Walked p d va s u t s') (h : Sv39 d s) (hp : Plain d va s)
    {i a j b : Nat} (ha : Points s d i a) (hb : Points s a j b)
    (hij : ¬(i = vpn2 va ∧ j = vpn1 va)) : b < s.kernMemCurr ∧ b ≠ d ∧ b ≠ u ∧ b ≠ t := by
  have hlow := h.third_low _ _ _ _ ha hb
  refine ⟨hlow, h.third_ne _ _ _ _ ha hb, ?_, ?_⟩
  · rintro rfl
    by_cases htop : (s.mem d (vpn2 va)).has present = true
    · exact h.third_second _ _ _ _ _ ha hb (hw.second hp htop)
    · have := (hw.newTop (by simpa using htop)).1
      omega
  · rintro rfl
    rcases hw.cases hp with ⟨k, hk, ht, rfl⟩ | ⟨hge, -, -⟩
    · exact hij (h.third_inj _ _ _ _ _ _ _ ha hb hk ht)
    · omega

/-! ## Other addresses -/

/-- The entry of `va` is set to `e`; no other word is written after the walk. -/
def Entered (t va : Nat) (e : Pte) (s s' : State) : Prop :=
  ∀ a j, s'.mem a j = if a = t ∧ j = vpn0 va then e else s.mem a j

/-- A new table has no entry but that of `va`. -/
theorem Entered.blank {e : Pte} {s'' : State} (he : Entered t va e s' s'')
    (hblank : ∀ j, s'.mem t j = ⟨0, 0⟩) {j : Nat} (hj : j ≠ vpn0 va) : s''.mem t j = ⟨0, 0⟩ := by
  rw [he, if_neg fun hc => hj hc.2]
  exact hblank j

/-- Under a path with no entry at the end there is none. -/
theorem pteChecker_blank {a : Nat} (hmid : ∀ b, (s.mem d (vpn2 va)).has present = true →
      pageOf (s.mem d (vpn2 va)) = b → (s.mem b (vpn1 va)).has present = true →
      pageOf (s.mem b (vpn1 va)) = a) (hlast : s.mem a (vpn0 va) = ⟨0, 0⟩) :
    pteChecker va d s = none := by
  unfold pteChecker
  by_cases htop : (s.mem d (vpn2 va)).has present = true
  · by_cases hsecond : (s.mem (pageOf (s.mem d (vpn2 va))) (vpn1 va)).has present = true
    · simp only [htop, hsecond, hmid _ htop rfl hsecond, hlast, if_true]
      rfl
    · simp only [htop, hsecond, if_true]
      rfl
  · simp only [htop]
    rfl

/-- **No other page number is affected.** -/
theorem Walked.elsewhere (hw : Walked p d va s u t s') (h : Sv39 d s) (hp : Plain d va s)
    (hp₂ : Plain d va₂ s) (hva : va < 2 ^ 39) (hva₂ : va₂ < 2 ^ 39)
    (hne : va₂ / 4096 ≠ va / 4096) {e : Pte} {s'' : State} (he : Entered t va e s' s'') :
    SameEntry d va₂ s s'' := by
  obtain ⟨hud, htd, htu⟩ := hw.apart h hp
  have hkeep : ∀ a j, a < s.kernMemCurr → ¬(a = d ∧ j = vpn2 va) → ¬(a = u ∧ j = vpn1 va) →
      ¬(a = t ∧ j = vpn0 va) → s''.mem a j = s.mem a j := by
    intro a j ha h2 h1 h0
    rw [he, if_neg h0]
    exact hw.same a j ha h2 h1
  have hlast : ∀ i a j b, Points s d i a → Points s a j b → ¬(i = vpn2 va ∧ j = vpn1 va) →
      ∀ k, s''.mem b k = s.mem b k := by
    intro i a j b ha hb hij k
    obtain ⟨hlow, hbd, hbu, hbt⟩ := hw.third_other h hp ha hb hij
    exact hkeep b k hlow (fun hc => hbd hc.1) (fun hc => hbu hc.1) (fun hc => hbt hc.1)
  by_cases h2 : vpn2 va₂ = vpn2 va
  · by_cases htop : (s.mem d (vpn2 va)).has present = true
    · have hu := hw.second hp htop
      have htop' : s''.mem d (vpn2 va) = s.mem d (vpn2 va) := by
        rw [he, if_neg fun hc => htd hc.1.symm]
        exact hw.oldTop htop
      by_cases h1 : vpn1 va₂ = vpn1 va
      · have h0 : vpn0 va₂ ≠ vpn0 va := fun h0 => hne (page_of_vpns hva hva₂ h2 h1 h0)
        by_cases hmid : (s.mem u (vpn1 va)).has present = true
        · -- the same tables, another entry of the last
          have ht := hw.third hp htop hmid
          refine .of_words (by rw [h2, htop']) fun a _ ha => ?_
          rw [h2, hu.page] at ha
          subst ha
          rw [h1]
          refine ⟨?_, fun b _ hb => ?_⟩
          · rw [he, if_neg fun hc => htu hc.1.symm, hw.oldMid htop hmid]
          · rw [ht.page] at hb
            subst hb
            rw [he, if_neg fun hc => h0 hc.2, hw.oldMid htop hmid]
        · -- the last table is new
          obtain ⟨-, -, hblank⟩ := hw.newMid fun _ => by simpa using hmid
          refine .of_none ?_ ?_
          · simp only [pteChecker, h2, htop, hu.page, h1, hmid, if_true]
            rfl
          · refine pteChecker_blank (fun b _ hb _ => ?_) (he.blank hblank h0)
            rw [h2, htop', hu.page] at hb
            subst hb
            rw [h1, he, if_neg fun hc => htu hc.1.symm]
            exact hw.mid.2
      · -- another entry of the second table
        refine .of_words (by rw [h2, htop']) fun a _ ha => ?_
        rw [h2, hu.page] at ha
        subst ha
        refine ⟨hkeep _ _ (h.second_low _ _ hu) (fun hc => hud hc.1) (fun hc => h1 hc.2)
          fun hc => htu hc.1.symm, fun b hb hpage => ?_⟩
        have hpt : Points s u (vpn1 va₂) b := hpage ▸ hp₂.next (by rw [h2]; exact hu) hb
        exact hlast _ _ _ _ hu hpt (fun hc => h1 hc.2) _
    · -- the second table is new
      obtain ⟨-, hblank⟩ := hw.newTop (by simpa using htop)
      have htop' : pageOf (s''.mem d (vpn2 va)) = u := by
        rw [he, if_neg fun hc => htd hc.1.symm]
        exact hw.top.2
      refine .of_none ?_ ?_
      · simp only [pteChecker, h2, htop]
        rfl
      · by_cases h1 : vpn1 va₂ = vpn1 va
        · have h0 : vpn0 va₂ ≠ vpn0 va := fun h0 => hne (page_of_vpns hva hva₂ h2 h1 h0)
          obtain ⟨-, -, hblank'⟩ := hw.newMid fun hcon => absurd hcon htop
          refine pteChecker_blank (fun b _ hb _ => ?_) (he.blank hblank' h0)
          rw [h2, htop'] at hb
          subst hb
          rw [h1, he, if_neg fun hc => htu hc.1.symm]
          exact hw.mid.2
        · have hzero : (s''.mem u (vpn1 va₂)).has present = false := by
            rw [he, if_neg fun hc => htu hc.1.symm, hblank _ h1]
            rfl
          simp [pteChecker, h2, htop', hzero]
  · -- another entry of the root
    have htop₂ : s''.mem d (vpn2 va₂) = s.mem d (vpn2 va₂) :=
      hkeep _ _ h.root_low (fun hc => h2 hc.2) (fun hc => hud hc.1.symm) fun hc => htd hc.1.symm
    refine .of_words htop₂ fun a ha hpage => ?_
    have hpt : Points s d (vpn2 va₂) a := hpage ▸ hp₂.points ha
    obtain ⟨hlow, had, hau, hat⟩ := hw.second_other h hp hpt h2
    refine ⟨hkeep _ _ hlow (fun hc => had hc.1) (fun hc => hau hc.1) fun hc => hat hc.1,
      fun b hb hpage' => ?_⟩
    have hpt' : Points s a (vpn1 va₂) b := hpage' ▸ hp₂.next hpt hb
    exact hlast _ _ _ _ hpt hpt' (fun hc => h2 hc.1) _

/-- The walk afterwards comes to the new entry. -/
theorem Walked.leads (hw : Walked p d va s u t s') (h : Sv39 d s) (hp : Plain d va s) {e : Pte}
    {s'' : State} (he : Entered t va e s' s'') : Leads d va t s'' := by
  obtain ⟨hud, htd, htu⟩ := hw.apart h hp
  have htop : s''.mem d (vpn2 va) = s'.mem d (vpn2 va) := by
    rw [he, if_neg fun hc => htd hc.1.symm]
  have hmid : s''.mem u (vpn1 va) = s'.mem u (vpn1 va) := by
    rw [he, if_neg fun hc => htu hc.1.symm]
  refine ⟨?_, ?_, ?_⟩
  · rw [htop]
    exact hw.top.1
  · rw [htop, hw.top.2, hmid]
    exact hw.mid.1
  · rw [htop, hw.top.2, hmid]
    exact hw.mid.2

/-- An entry that the walk finds present was there before. -/
theorem Walked.present_old (hw : Walked p d va s u t s')
    (hpres : (s'.mem t (vpn0 va)).has present = true) : s' = s := by
  by_cases htop : (s.mem d (vpn2 va)).has present = true
  · by_cases hmid : (s.mem u (vpn1 va)).has present = true
    · exact hw.oldMid htop hmid
    · obtain ⟨-, -, hblank⟩ := hw.newMid fun _ => by simpa using hmid
      rw [hblank] at hpres
      exact absurd hpres (by decide)
  · obtain ⟨-, -, hblank⟩ := hw.newMid fun hcon => absurd hcon htop
    rw [hblank] at hpres
    exact absurd hpres (by decide)

end Walked

/-! ## Making a mapping -/

/-- `pte_checker` and `get_pte` come to one entry for `va`, and it is present and holds the
physical address `pa`. -/
def MapsTo (d va pa : Nat) (s : State) : Prop :=
  ∃ t, pteChecker va d s = some (t, vpn0 va) ∧ getPte va d s = .ok (t, vpn0 va) ∧
    (s.mem t (vpn0 va)).has present = true ∧ getPa (s.mem t (vpn0 va)) = pa

/-- No page is there at `va`. -/
def Absent (d va : Nat) (s : State) : Prop :=
  ∀ t i, pteChecker va d s = some (t, i) → (s.mem t i).has present = false

/-- The page at `va` is there, in the frame `x`. -/
def There (d va x : Nat) (s : State) : Prop :=
  ∃ t i, pteChecker va d s = some (t, i) ∧ (s.mem t i).has present = true ∧
    pageOf (s.mem t i) = x

/-- A process has the frame `x` at some address. -/
def FrameMapped (s : State) (x : Nat) : Prop :=
  ∃ q va, Plain (s.procs q).pgdir va s ∧ There (s.procs q).pgdir va x s

/-- A new mapping for `va`, with all permissions, and no other. -/
structure NewMapping (d va pa : Nat) (s s' : State) : Prop where
  maps : MapsTo d va pa s'
  attr : ∀ t i, pteChecker va d s' = some (t, i) → (s'.mem t i).attr &&& leafAttr = leafAttr
  others : ∀ va₂, va₂ < 2 ^ 39 → va₂ / 4096 ≠ va / 4096 → Plain d va₂ s → SameEntry d va₂ s s'

/-- The entry both helpers write. -/
def leafEntry (pfn : Nat) (e : Pte) : Pte := setAttribute leafAttr (setPfn pfn e)

/-- The entry has all permissions of a leaf. -/
theorem leafEntry_attr (pfn : Nat) (e : Pte) : (leafEntry pfn e).attr &&& leafAttr = leafAttr := by
  change (e.attr ||| leafAttr) &&& leafAttr = leafAttr
  generalize e.attr = x
  revert x
  decide +kernel

/-- The entry is present. -/
theorem leafEntry_present (pfn : Nat) (e : Pte) : (leafEntry pfn e).has present = true := by
  rw [has_eq_true]
  exact leafAttr_present e.attr

/-- Page-aligned addresses fit the frame number of an entry. -/
theorem leafEntry_pa {pa : Nat} (e : Pte) (ha : pa % 4096 = 0) (hlt : pa < 2 ^ 56) :
    getPa (leafEntry (pa / 4096) e) = pa := by
  change pa / 4096 % 2 ^ 54 % 2 ^ 44 * 4096 = pa
  omega

/-- Tables that lead to a present entry map the address to what it holds. -/
theorem Leads.mapsTo {t pa : Nat} (h : Leads d va t s)
    (hp : (s.mem t (vpn0 va)).has present = true) (hpa : getPa (s.mem t (vpn0 va)) = pa) :
    MapsTo d va pa s := by
  refine ⟨t, ?_, h.getPte hp, hp, hpa⟩
  rw [h.pteChecker, hp]
  rfl

/-- The new entry after the walk. -/
theorem Walked.mapping {u t pa : Nat} (hw : Walked p d va s u t s') (h : Sv39 d s)
    (hp : Plain d va s) (hva : va < 2 ^ 39) (ha : pa % 4096 = 0) (hlt : pa < 2 ^ 56) {e : Pte}
    {s'' : State} (he : Entered t va (leafEntry (pa / 4096) e) s' s'') :
    NewMapping d va pa s s'' := by
  have hleads := hw.leads h hp he
  have hword : s''.mem t (vpn0 va) = leafEntry (pa / 4096) e := by rw [he, if_pos ⟨rfl, rfl⟩]
  refine ⟨hleads.mapsTo ?_ ?_, fun t' i hsome => ?_, fun va₂ hva₂ hne hp₂ =>
    hw.elsewhere h hp hp₂ hva hva₂ hne he⟩
  · rw [hword]
    exact leafEntry_present _ e
  · rw [hword]
    exact leafEntry_pa e ha hlt
  · rw [hleads.pteChecker, hword, leafEntry_present] at hsome
    cases hsome
    rw [hword]
    exact leafEntry_attr _ e

/-- An entry that the walk finds is the one `pte_checker` finds. -/
theorem Walked.found {u t : Nat} (hw : Walked p d va s u t s') (h : Sv39 d s) (hp : Plain d va s)
    (hpres : (s'.mem t (vpn0 va)).has present = true) :
    s' = s ∧ pteChecker va d s = some (t, vpn0 va) := by
  obtain rfl : s' = s := hw.present_old hpres
  have hself : Entered t va (s'.mem t (vpn0 va)) s' s' := by
    intro a j
    by_cases haj : a = t ∧ j = vpn0 va
    · rw [if_pos haj, haj.1, haj.2]
    · rw [if_neg haj]
  refine ⟨rfl, ?_⟩
  rw [(hw.leads h hp hself).pteChecker, hpres]
  rfl

/-- An entry that is absent after the walk was absent before. -/
theorem Walked.absent {u t : Nat} (hw : Walked p d va s u t s') (hp : Plain d va s)
    (hpres : ¬(s'.mem t (vpn0 va)).has present = true) : Absent d va s := by
  intro t' i hsome
  obtain ⟨hi, ⟨htop, hsecond, hthird⟩, -⟩ := leads_of_pteChecker hsome
  simp only at hi hthird
  have hu := hw.second hp htop
  rw [hu.page] at hsecond hthird
  have ht : t = t' := (hw.third hp htop hsecond).page.symm.trans hthird
  rw [hw.oldMid htop hsecond, ht, ← hi] at hpres
  simpa using hpres

/-- The physical address of a frame fits an entry. -/
theorem Frame.pa_fits {k : Nat} (h : Frame k) : kva2pa k % 4096 = 0 ∧ kva2pa k < 2 ^ 56 := by
  unfold Frame at h
  unfold kva2pa
  simp only [kvaOffset] at *
  omega

/-- Setting frame and attributes enters one word. -/
theorem modifyWord_entered (t va pfn : Nat) (s : State) :
    Entered t va (leafEntry pfn (s.mem t (vpn0 va))) s
      (modifyWord t (vpn0 va) (setAttribute leafAttr) (modifyWord t (vpn0 va) (setPfn pfn) s)) := by
  intro a j
  by_cases haj : a = t ∧ j = vpn0 va
  · obtain ⟨rfl, rfl⟩ := haj
    simp [modifyWord, setWord, leafEntry]
  · simp [modifyWord, setWord, haj]

variable {pa : Nat}

/-- `build_page_helper` at an address without a page. -/
theorem buildPageHelper_maps (h : Sv39 (s.procs p).pgdir s) (hspare : Spare 3 p s)
    (hva : va < 2 ^ 39) (hp : Plain (s.procs p).pgdir va s) (habs : Absent (s.procs p).pgdir va s)
    (ha : pa % 4096 = 0) (hlt : pa < 2 ^ 56) :
    ∃ s', buildPageHelper va p pa s = .ok s' ∧ NewMapping (s.procs p).pgdir va pa s s' := by
  obtain ⟨u, s₁, t, s₂, hu, ht, hw⟩ := walked h hp hspare
  unfold buildPageHelper
  rw [hu]
  change ∃ s', (tableAt p u (vpn1 va) s₁ >>= _) = _ ∧ _
  rw [ht]
  change ∃ s', (if (s₂.mem t (vpn0 va)).has present = true then _ else _) = _ ∧ _
  by_cases hpres : (s₂.mem t (vpn0 va)).has present = true
  · obtain ⟨rfl, hsome⟩ := hw.found h hp hpres
    rw [habs _ _ hsome] at hpres
    cases hpres
  · rw [if_neg hpres]
    exact ⟨_, rfl, hw.mapping h hp hva ha hlt (modifyWord_entered t va (pa / 4096) s₂)⟩

/-- `alloc_page_helper`: the frame that is there, or a new one. -/
theorem allocPageHelper_maps (h : Sv39 (s.procs p).pgdir s) (hspare : Spare 3 p s)
    (hva : va < 2 ^ 39) (hp : Plain (s.procs p).pgdir va s) (st : PageStatus) :
    ∃ k s', allocPageHelper va p st s = .ok (k, s') ∧
      ((s' = s ∧ There (s.procs p).pgdir va k s ∧ MapsTo (s.procs p).pgdir va (kva2pa k) s) ∨
        (Absent (s.procs p).pgdir va s ∧ s.kernMemCurr ≤ k ∧
          NewMapping (s.procs p).pgdir va (kva2pa k) s s')) := by
  obtain ⟨u, s₁, t, s₂, hu, ht, hw⟩ := walked h hp hspare
  unfold allocPageHelper
  rw [hu]
  change ∃ k s', (tableAt p u (vpn1 va) s₁ >>= _) = _ ∧ _
  rw [ht]
  change ∃ k s', (if (s₂.mem t (vpn0 va)).has present = true then _ else _) = _ ∧ _
  by_cases hpres : (s₂.mem t (vpn0 va)).has present = true
  · obtain ⟨rfl, hsome⟩ := hw.found h hp hpres
    rw [if_pos hpres]
    obtain ⟨-, hleads, -⟩ := leads_of_pteChecker hsome
    exact ⟨_, _, rfl, Or.inl ⟨rfl, ⟨t, _, hsome, hpres, rfl⟩,
      hleads.mapsTo hpres (kva2pa_pageOf _).symm⟩⟩
  · rw [if_neg hpres]
    obtain ⟨⟨id, s₃⟩, halloc, htook⟩ := allocPagetable_took hw.spare st
    rw [halloc]
    have hkva : (s₃.pages id).kva = nextPage s₂ := htook.kva
    have hframe := hw.spare.frame
    obtain ⟨k, hk⟩ : ∃ k, k = nextPage s₂ := ⟨_, rfl⟩
    obtain ⟨s₄, hs₄⟩ : ∃ s₄, s₄ = setPage id
        { s₃.pages id with uva := va, pte := some (t, vpn0 va) } s₃ := ⟨_, rfl⟩
    have hkva₄ : (s₄.pages id).kva = k := by
      rw [hs₄, hk, ← hkva]
      simp [setPage]
    have hmem₄ : s₄.mem = s₂.mem := by
      rw [hs₄]
      exact htook.mem
    refine ⟨k, modifyWord t (vpn0 va) (setAttribute leafAttr)
      (modifyWord t (vpn0 va) (setPfn (kva2pa k / 4096)) s₄), ?_, Or.inr ⟨?_, ?_, ?_⟩⟩
    · rw [← hkva₄, hs₄]
      rfl
    · exact hw.absent hp hpres
    · rw [hk]
      exact hw.kern.trans (le_nextPage s₂)
    · have he := modifyWord_entered t va (kva2pa k / 4096) s₄
      have he' : Entered t va (leafEntry (kva2pa k / 4096) (s₄.mem t (vpn0 va))) s₂
          (modifyWord t (vpn0 va) (setAttribute leafAttr)
            (modifyWord t (vpn0 va) (setPfn (kva2pa k / 4096)) s₄)) := by
        intro a j
        rw [he a j, hmem₄]
      have hfits := Frame.pa_fits (hk ▸ hframe)
      exact hw.mapping h hp hva hfits.1 hfits.2 he'

/-- A page that is there is not absent. -/
theorem There.not_absent {x : Nat} (h : There d va x s) : ¬Absent d va s := by
  obtain ⟨t, i, hsome, hpres, -⟩ := h
  intro habs
  rw [habs t i hsome] at hpres
  cases hpres

/-- **Page mapping is exact.**  For every address whose path has no leaf above the last level,
`alloc_page_helper` returns the frame that is there, or maps a new one with all permissions, and
`build_page_helper` maps the frame it is given; no other page number is affected. -/
theorem page_mapping_exact (h : Sv39 (s.procs p).pgdir s)
    (hlow : ∀ x, FrameMapped s x → x < s.kernMemCurr) (hspare : Spare 3 p s) (hva : va < 2 ^ 39)
    (hp : Plain (s.procs p).pgdir va s) (st : PageStatus) :
    (∃ k s', allocPageHelper va p st s = .ok (k, s') ∧
      MapsTo (s.procs p).pgdir va (kva2pa k) s' ∧
      ((∃ x, There (s.procs p).pgdir va x s) → s' = s ∧ There (s.procs p).pgdir va k s) ∧
      (Absent (s.procs p).pgdir va s →
        ¬FrameMapped s k ∧ NewMapping (s.procs p).pgdir va (kva2pa k) s s')) ∧
      (Absent (s.procs p).pgdir va s → ∀ pa, pa % 4096 = 0 → pa < 2 ^ 56 →
        ∃ s', buildPageHelper va p pa s = .ok s' ∧
          NewMapping (s.procs p).pgdir va pa s s') := by
  refine ⟨?_, fun habs pa ha hlt => buildPageHelper_maps h hspare hva hp habs ha hlt⟩
  obtain ⟨k, s', hret, ⟨rfl, hthere, hmaps⟩ | ⟨habs, hge, hnew⟩⟩ :=
    allocPageHelper_maps h hspare hva hp st
  · exact ⟨k, s', hret, hmaps, fun _ => ⟨rfl, hthere⟩, fun habs => absurd habs hthere.not_absent⟩
  · refine ⟨k, s', hret, hnew.maps, fun ⟨x, hx⟩ => absurd habs hx.not_absent, fun _ =>
      ⟨fun hmapped => ?_, hnew⟩⟩
    have := hlow k hmapped
    omega

/-! ## A process with a page -/

/-- A process with the first page of its user stack, at `0xf0000f000`: its root table, in which it
has a copy of what the kernel maps, two tables below and the page are the first pages handed out. -/
def stackProcess : State where
  mem t i :=
    if t = freememKernel then
      if i = 60 then ⟨kva2pa (freememKernel + 0x1000) / 4096, present ||| user⟩
      else setupVm (pa2kva pgdirPa) i
    else if t = freememKernel + 0x1000 then
      if i = 0 then ⟨kva2pa (freememKernel + 0x2000) / 4096, present ||| user⟩ else ⟨0, 0⟩
    else if t = freememKernel + 0x2000 then
      if i = 15 then ⟨kva2pa (freememKernel + 0x3000) / 4096, leafAttr⟩ else ⟨0, 0⟩
    else setupVm t i
  pages id := if id < 4 then ⟨.unswapable, freememKernel + 4096 * id, 0, 0, none⟩
    else ⟨.unused, 0, 0, 0, none⟩
  pageId := 4
  kernMemCurr := freememKernel + 0x4000
  sd := fun _ _ => ⟨0, 0⟩
  sector := 2048
  procs := fun _ => ⟨true, freememKernel, 4, maxPagetableNum, [0, 1, 2, 3]⟩
  writes := []

section StackProcess

variable {i t u : Nat}

/-- The root table leads to a table of its own and to the two of the kernel. -/
theorem stackProcess_second (h : Points stackProcess freememKernel i t) :
    (i = 60 ∧ t = freememKernel + 0x1000) ∨ (i = 257 ∧ t = pa2kva (pgdirPa + 0x1000)) ∨
      (i = 1 ∧ t = pa2kva (pgdirPa + 0x2000)) := by
  obtain ⟨hthere, _, rfl⟩ := h
  by_cases h₁ : i = 60
  · subst h₁
    exact .inl ⟨rfl, by decide⟩
  · by_cases h₂ : i = 257
    · subst h₂
      exact .inr (.inl ⟨rfl, by decide⟩)
    · by_cases h₃ : i = 1
      · subst h₃
        exact .inr (.inr ⟨rfl, by decide⟩)
      · have hword : stackProcess.mem freememKernel i = ⟨0, 0⟩ := by
          unfold stackProcess setupVm
          simp only [if_pos, if_neg h₁, if_neg h₂, if_neg h₃]
        rw [hword] at hthere
        exact absurd hthere (by decide)

/-- The only entry of the second table. -/
theorem stackProcess_third (h : Points stackProcess (freememKernel + 0x1000) i t) :
    i = 0 ∧ t = freememKernel + 0x2000 := by
  obtain ⟨hthere, _, rfl⟩ := h
  by_cases hi : i = 0
  · subst hi
    exact ⟨rfl, by decide⟩
  · have hword : stackProcess.mem (freememKernel + 0x1000) i = ⟨0, 0⟩ := by
      unfold stackProcess
      simp only [if_pos, if_neg hi, if_neg (by decide : freememKernel + 0x1000 ≠ freememKernel)]
    rw [hword] at hthere
    exact absurd hthere (by decide)

/-- The tables of the kernel have large pages only. -/
theorem stackProcess_kernel (ht : t = pa2kva (pgdirPa + 0x1000) ∨ t = pa2kva (pgdirPa + 0x2000)) :
    ¬Points stackProcess t i u := by
  rintro ⟨hthere, hinner, _⟩
  have hlow : freememKernel ≠ t ∧ freememKernel + 0x1000 ≠ t ∧ freememKernel + 0x2000 ≠ t := by
    rcases ht with rfl | rfl <;> decide
  have hword : stackProcess.mem t i = setupVm t i := by
    unfold stackProcess
    simp only [if_neg hlow.1.symm, if_neg hlow.2.1.symm, if_neg hlow.2.2.symm]
  have hlarge : ∀ pfn, (⟨pfn, present ||| read ||| write ||| exec ||| accessed ||| dirty⟩ :
      Pte).has (read ||| write ||| exec) = true := fun _ =>
    has_eq_true.mpr (by decide : (present ||| read ||| write ||| exec ||| accessed ||| dirty) &&&
      (read ||| write ||| exec) ≠ 0)
  have hleaf : (setupVm t i).has present = false ∨
      (setupVm t i).has (read ||| write ||| exec) = true := by
    rcases ht with rfl | rfl
    · unfold setupVm
      rw [if_neg (by decide), if_pos rfl]
      split_ifs
      · exact .inr (hlarge _)
      · exact .inl (by decide)
    · unfold setupVm
      rw [if_neg (by decide), if_neg (by decide), if_pos rfl]
      split_ifs
      · exact .inr (hlarge _)
      · exact .inl (by decide)
  rw [hword] at hthere hinner
  rcases hleaf with hl | hl
  · rw [hl] at hthere
    cases hthere
  · rw [hl] at hinner
    cases hinner

/-- Its own branch is the only one with a table on the last level. -/
theorem stackProcess_path {j : Nat} (h : Points stackProcess freememKernel i t)
    (h' : Points stackProcess t j u) : i = 60 ∧ t = freememKernel + 0x1000 ∧ j = 0 ∧
      u = freememKernel + 0x2000 := by
  rcases stackProcess_second h with ⟨hi, rfl⟩ | ⟨_, ht⟩ | ⟨_, ht⟩
  · exact ⟨hi, rfl, stackProcess_third h'⟩
  · exact absurd h' (stackProcess_kernel (.inl ht))
  · exact absurd h' (stackProcess_kernel (.inr ht))

/-- The tables of the process are different pages. -/
theorem stackProcess_sv39 : Sv39 freememKernel stackProcess where
  second_ne i t h := by
    rcases stackProcess_second h with ⟨_, rfl⟩ | ⟨_, rfl⟩ | ⟨_, rfl⟩ <;> decide
  second_inj i j t h h' := by
    rcases stackProcess_second h with ⟨rfl, rfl⟩ | ⟨rfl, rfl⟩ | ⟨rfl, rfl⟩ <;>
      rcases stackProcess_second h' with ⟨rfl, ht⟩ | ⟨rfl, ht⟩ | ⟨rfl, ht⟩ <;>
        first | rfl | exact absurd ht (by decide)
  third_ne i t j u h h' := by
    obtain ⟨_, _, _, rfl⟩ := stackProcess_path h h'
    decide
  third_second i t j u k h h' hk := by
    obtain ⟨_, _, _, rfl⟩ := stackProcess_path h h'
    rcases stackProcess_second hk with ⟨_, hu⟩ | ⟨_, hu⟩ | ⟨_, hu⟩ <;>
      exact absurd hu (by decide)
  third_inj i t j i' t' j' u h h' hk hk' := by
    obtain ⟨hi, _, hj, _⟩ := stackProcess_path h h'
    obtain ⟨hi', _, hj', _⟩ := stackProcess_path hk hk'
    exact ⟨hi.trans hi'.symm, hj.trans hj'.symm⟩
  root_low := by decide
  second_low i t h := by
    rcases stackProcess_second h with ⟨_, rfl⟩ | ⟨_, rfl⟩ | ⟨_, rfl⟩ <;> decide
  third_low i t j u h h' := by
    obtain ⟨_, _, _, rfl⟩ := stackProcess_path h h'
    decide

/-- Three more pages are there for the process. -/
theorem stackProcess_spare : Spare 3 0 stackProcess where
  bound := by decide
  ahead := by
    unfold Ahead
    decide +kernel
  heap := by decide

/-- There is no leaf above the last level. -/
theorem stackProcess_plain {va : Nat} (htop : vpn2 va = 60) (hsecond : vpn1 va = 0) :
    Plain freememKernel va stackProcess where
  top _ := by
    rw [htop]
    decide
  second t h _ := by
    rw [htop] at h
    rcases stackProcess_second h with ⟨_, rfl⟩ | ⟨hcon, _⟩ | ⟨hcon, _⟩
    · rw [hsecond]
      decide
    · exact absurd hcon (by decide)
    · exact absurd hcon (by decide)

/-- The page of the user stack is there. -/
theorem stackProcess_there :
    There freememKernel 0xf0000f000 (freememKernel + 0x3000) stackProcess :=
  ⟨freememKernel + 0x2000, 15, by decide, by decide, by decide⟩

/-- The only frame that is mapped is the page of the stack. -/
theorem stackProcess_frame {x : Nat} (h : FrameMapped stackProcess x) :
    x = freememKernel + 0x3000 := by
  obtain ⟨q, va, hplain, t, i, hsome, hthere, rfl⟩ := h
  obtain ⟨_, hleads, _⟩ := leads_of_pteChecker hsome
  have hfirst := hplain.points hleads.top
  have hnext := hplain.next hfirst hleads.second
  rw [hleads.third] at hnext
  obtain ⟨_, _, _, rfl⟩ := stackProcess_path hfirst hnext
  by_cases hi : i = 15
  · subst hi
    decide
  · have hword : stackProcess.mem (freememKernel + 0x2000) i = ⟨0, 0⟩ := by
      unfold stackProcess
      simp only [if_pos, if_neg hi, if_neg (by decide : freememKernel + 0x2000 ≠ freememKernel),
        if_neg (by decide : freememKernel + 0x2000 ≠ freememKernel + 0x1000)]
    simp only [hword] at hthere
    exact absurd hthere (by decide)

/-- The page that is there is found; the next one below gets a frame of its own, and the mapping of
the first stays. -/
theorem page_mapping_exact_stack :
    allocPageHelper 0xf0000f000 0 .swapable stackProcess =
      .ok (freememKernel + 0x3000, stackProcess) ∧
    ∃ k s', allocPageHelper 0xf0000e000 0 .swapable stackProcess = .ok (k, s') ∧
      ¬FrameMapped stackProcess k ∧
      NewMapping freememKernel 0xf0000e000 (kva2pa k) stackProcess s' ∧
      SameEntry freememKernel 0xf0000f000 stackProcess s' := by
  have hplain : Plain freememKernel 0xf0000f000 stackProcess :=
    stackProcess_plain (by decide) (by decide)
  have hlow : ∀ x, FrameMapped stackProcess x → x < stackProcess.kernMemCurr := fun x hx => by
    rw [stackProcess_frame hx]
    decide
  constructor
  · obtain ⟨⟨k, s', hret, _, hfound, _⟩, _⟩ := page_mapping_exact (p := 0) stackProcess_sv39 hlow
      stackProcess_spare (by decide) hplain .swapable
    obtain ⟨rfl, hk⟩ := hfound ⟨_, stackProcess_there⟩
    rw [hret, stackProcess_frame ⟨0, _, hplain, hk⟩]
  · obtain ⟨⟨k, s', hret, _, _, hmade⟩, _⟩ := page_mapping_exact (p := 0) stackProcess_sv39 hlow
      stackProcess_spare (by decide : 0xf0000e000 < 2 ^ 39)
      (stackProcess_plain (by decide) (by decide)) .swapable
    have hnone : pteChecker 0xf0000e000 freememKernel stackProcess = none := by decide
    obtain ⟨hfree, hnew⟩ := hmade fun t i hsome => by
      cases hnone.symm.trans hsome
    exact ⟨k, s', hret, hfree, hnew, hnew.others _ (by decide) (by decide) hplain⟩

end StackProcess

end Mm
