import OslabRiscv.Mm.Paging

/-!
# What an eviction and a return do

The walks over a page table that is there, and the two moves of a page: `Evicts`
is the whole effect of `swap_to_sd`, `Returns` that of `swap_to_mem`, and `Takes`
that of the search for a descriptor.  What a process's list gives when only one of its
descriptors fits is said once in `find?_eq_of_unique`.
-/

namespace Mm

variable {s s' : State} {p id t i va kva : Nat}

/-! ## Bits and frames -/

/-- The attributes of a page that is put away, and how they come back. -/
theorem evict_bits (a : BitVec 10) (hp : a &&& present ≠ 0) (hi : a &&& inSd = 0) :
    ((a ||| inSd) ^^^ present) &&& present = 0 ∧ ((a ||| inSd) ^^^ present) &&& inSd ≠ 0 ∧
      (((a ||| inSd) ^^^ present) ^^^ inSd) ||| present = a := by
  revert a
  decide +kernel

/-- The attributes of a page that is brought back. -/
theorem return_bits (a : BitVec 10) (hp : a &&& present = 0) (hi : a &&& inSd ≠ 0) :
    ((a ^^^ inSd) ||| present) &&& present ≠ 0 ∧ ((a ^^^ inSd) ||| present) &&& inSd = 0 := by
  revert a
  decide +kernel

/-- A bit that is set. -/
theorem has_eq_true {e : Pte} {bits : BitVec 10} : e.has bits = true ↔ e.attr &&& bits ≠ 0 := by
  unfold Pte.has
  exact decide_eq_true_iff

/-- A bit that is not set. -/
theorem has_eq_false {e : Pte} {bits : BitVec 10} : e.has bits = false ↔ e.attr &&& bits = 0 := by
  unfold Pte.has
  rw [decide_eq_false_iff_not, not_not]

/-- Page-aligned addresses the kernel can hand out. -/
def Frame (kva : Nat) : Prop := kvaOffset ≤ kva ∧ kva < 2 ^ 64 ∧ kva % 4096 = 0

instance (kva : Nat) : Decidable (Frame kva) :=
  inferInstanceAs (Decidable (_ ∧ _ ∧ _))

/-- An entry made for a frame points to it. -/
theorem Frame.pageOf_eq (h : Frame kva) {e : Pte} (he : e.pfn = kva2pa kva / 4096 % 2 ^ 54) :
    pageOf e = kva := by
  obtain ⟨hlo, hhi, halign⟩ := h
  unfold kvaOffset at hlo
  simp only [pageOf, getPa, getPfn, he, kva2pa, pa2kva, kvaOffset]
  omega

theorem Frame.ne_zero (h : Frame kva) : kva ≠ 0 := by
  obtain ⟨hlo, _, _⟩ := h
  unfold kvaOffset at hlo
  omega

/-- The entry of a page put away in `sector`. -/
def outEntry (sector : Nat) (e : Pte) : Pte := ⟨sector % 2 ^ 54, (e.attr ||| inSd) ^^^ present⟩

/-- The entry of a page brought back to `kva`. -/
def inEntry (kva : Nat) (e : Pte) : Pte :=
  ⟨kva2pa kva / 4096 % 2 ^ 54, (e.attr ^^^ inSd) ||| present⟩

/-- Setting attributes keeps the frame. -/
@[simp] theorem pageOf_setAttribute (bits : BitVec 10) (e : Pte) :
    pageOf (setAttribute bits e) = pageOf e := rfl

/-- Clearing attributes keeps the frame. -/
@[simp] theorem pageOf_cleanAttribute (bits : BitVec 10) (e : Pte) :
    pageOf (cleanAttribute bits e) = pageOf e := rfl

/-- Two changes of one word are one. -/
theorem modifyWord_twice (t i : Nat) (f g : Pte → Pte) (s : State) :
    modifyWord t i f (modifyWord t i g s) = setWord t i (f (g (s.mem t i))) s := by
  unfold modifyWord setWord
  congr 1
  funext a j
  by_cases haj : a = t ∧ j = i
  · simp [haj]
  · simp [haj]

/-! ## Walks -/

/-- The tables on the way to `va` are there, and the last one is `t`. -/
structure Leads (pgdir va t : Nat) (s : State) : Prop where
  top : (s.mem pgdir (vpn2 va)).has present = true
  second : (s.mem (pageOf (s.mem pgdir (vpn2 va))) (vpn1 va)).has present = true
  third : pageOf (s.mem (pageOf (s.mem pgdir (vpn2 va))) (vpn1 va)) = t

/-- With its tables there, `get_pte` finds a present entry. -/
theorem Leads.getPte {pgdir : Nat} (h : Leads pgdir va t s)
    (hp : (s.mem t (vpn0 va)).has present = true) : getPte va pgdir s = .ok (t, vpn0 va) := by
  simp only [Mm.getPte, h.top, h.second, h.third, hp, if_true]

/-- With its tables there, `pte_checker` finds an entry that is present or on the disk. -/
theorem Leads.pteChecker {pgdir : Nat} (h : Leads pgdir va t s) :
    pteChecker va pgdir s =
      if (s.mem t (vpn0 va)).has present || (s.mem t (vpn0 va)).has inSd then some (t, vpn0 va)
      else none := by
  simp only [Mm.pteChecker, h.top, h.second, h.third, if_true]

/-- A walk that comes to an entry has gone through tables. -/
theorem leads_of_getPte {pgdir : Nat} {r : Nat × Nat} (h : getPte va pgdir s = .ok r) :
    r.2 = vpn0 va ∧ Leads pgdir va r.1 s ∧ (s.mem r.1 r.2).has present = true := by
  simp only [getPte] at h
  split_ifs at h with h2 h1 h0
  rw [← Except.ok.inj h]
  exact ⟨rfl, ⟨h2, h1, rfl⟩, h0⟩

/-- An entry that `pte_checker` finds has its tables there. -/
theorem leads_of_pteChecker {pgdir : Nat} {r : Nat × Nat} (h : pteChecker va pgdir s = some r) :
    r.2 = vpn0 va ∧ Leads pgdir va r.1 s ∧
      ((s.mem r.1 r.2).has present = true ∨ (s.mem r.1 r.2).has inSd = true) := by
  simp only [pteChecker] at h
  split_ifs at h with h2 h1 h0
  rw [← Option.some.inj h]
  rw [Bool.or_eq_true] at h0
  exact ⟨rfl, ⟨h2, h1, rfl⟩, h0⟩

/-- A search finds the only element there is. -/
theorem find?_eq_of_unique {α : Type} {P : α → Bool} {l : List α} {x : α} (hx : x ∈ l)
    (hPx : P x = true) (h : ∀ y ∈ l, P y = true → y = x) : l.find? P = some x := by
  cases hf : l.find? P with
  | none => exact absurd hPx (List.find?_eq_none.mp hf x hx)
  | some y =>
      have hy := h y (List.mem_of_find?_eq_some hf) (List.find?_some hf)
      rw [hy]

/-! ## Out -/

/-- The page `id` behind entry `i` of `t` is put away. -/
structure Evicts (id t i : Nat) (s s' : State) : Prop where
  entry : s'.mem t i = outEntry s.sector (s.mem t i)
  frame : ∀ j, s'.mem (pageOf (s.mem t i)) j = ⟨0, 0⟩
  mem : ∀ a j, (a ≠ t ∨ j ≠ i) → a ≠ pageOf (s.mem t i) → s'.mem a j = s.mem a j
  sd : ∀ c j, s'.sd c j = if s.sector ≤ c ∧ c < s.sector + 8 then
    s.mem (pageOf (s.mem t i)) ((c - s.sector) * 64 + j) else s.sd c j
  sector : s'.sector = (s.sector + 8) % 2 ^ 32
  writes : s'.writes = s.writes ++ [s.sector]
  page : s'.pages id = { s.pages id with pte := some (t, i), status := .notInMem, kva := 0 }
  pages : ∀ k, k ≠ id → s'.pages k = s.pages k
  pageId : s'.pageId = s.pageId
  kernMemCurr : s'.kernMemCurr = s.kernMemCurr
  procs : s'.procs = s.procs

/-- `swap_to_sd` puts the page away. -/
theorem swapToSd_evicts (hpte : getPte (s.pages id).uva (s.procs p).pgdir s = .ok (t, i))
    (hne : pageOf (s.mem t i) ≠ t) :
    ∃ s', swapToSd id p s = .ok ((s.pages id).kva, s') ∧ Evicts id t i s s' := by
  have hpte' : getPte (s.pages id).uva (s.procs p).pgdir (getSector s).2 = .ok (t, i) := hpte
  unfold swapToSd
  simp only [show (getSector s).2.pages = s.pages from rfl,
    show (getSector s).2.procs = s.procs from rfl, hpte']
  refine ⟨_, rfl, ?_⟩
  constructor
  case entry =>
    simp [modifyWord, setWord, sdWrite, clearPgdir, setContent, setPage, getSector, hne.symm]
    rfl
  case frame =>
    intro j
    simp [modifyWord, setWord, sdWrite, clearPgdir, setContent, setPage, getSector, hne]
  case mem =>
    intro a j h ha
    have h' : ¬ (a = t ∧ j = i) := by
      intro hcon
      rcases h with h | h
      · exact h hcon.1
      · exact h hcon.2
    simp [modifyWord, setWord, sdWrite, clearPgdir, setContent, setPage, getSector, h', ha]
  case sd =>
    intro c j
    simp [modifyWord, setWord, sdWrite, clearPgdir, setContent, setPage, getSector, hne]
  case sector => rfl
  case writes => rfl
  case page => simp [modifyWord, setWord, sdWrite, clearPgdir, setContent, setPage, getSector]
  case pages =>
    intro k hk
    simp [modifyWord, setWord, sdWrite, clearPgdir, setContent, setPage, getSector, hk]
  case pageId => rfl
  case kernMemCurr => rfl
  case procs => rfl

/-! ## In -/

/-- The page `id` behind entry `i` of `t` is brought back to the frame `kva`. -/
structure Brings (id t i va kva : Nat) (s s' : State) : Prop where
  entry : s'.mem t i = inEntry kva (s.mem t i)
  frame : ∀ j, j < 512 → s'.mem kva j = s.sd (getPfn (s.mem t i) % 2 ^ 32 + j / 64) (j % 64)
  mem : ∀ a j, (a ≠ t ∨ j ≠ i) → a ≠ kva → s'.mem a j = s.mem a j
  page : s'.pages id = { s.pages id with status := .swapable, uva := va, kva := kva }
  pages : ∀ k, k ≠ id → s'.pages k = s.pages k
  sd : s'.sd = s.sd
  sector : s'.sector = s.sector
  writes : s'.writes = s.writes
  pageId : s'.pageId = s.pageId
  kernMemCurr : s'.kernMemCurr = s.kernMemCurr
  procs : s'.procs = s.procs

/-- `swap_to_mem` brings the page back. -/
theorem swapToMem_brings
    (hid : findPage (fun q => q.pte = some (t, i)) (s.procs p).pagehead s = .ok id)
    (hout : (s.pages id).status = .notInMem) (hkva : (s.pages id).kva = 0) (hne : kva ≠ t) :
    ∃ s', swapToMem t i va kva p s = .ok s' ∧ Brings id t i va kva s s' := by
  unfold swapToMem
  simp only [hid]
  change ∃ s', (if (s.pages id).status ≠ .notInMem then _ else _) = _ ∧ _
  rw [if_neg (by rw [hout]; exact fun h => h rfl), if_neg (by rw [hkva]; exact fun h => h rfl)]
  refine ⟨_, rfl, ?_⟩
  constructor
  case entry =>
    simp [modifyWord, setWord, sdRead, setContent, setPage, hne.symm]
    rfl
  case frame =>
    intro j hj
    simp [modifyWord, setWord, sdRead, setContent, setPage, hne, hj]
  case mem =>
    intro a j h ha
    have h' : ¬ (a = t ∧ j = i) := by
      intro hcon
      rcases h with h | h
      · exact h hcon.1
      · exact h hcon.2
    simp [modifyWord, setWord, sdRead, setContent, setPage, h', ha]
  case page => simp [modifyWord, setWord, sdRead, setContent, setPage]
  case pages =>
    intro k hk
    simp [modifyWord, setWord, sdRead, setContent, setPage, hk]
  case sd => rfl
  case sector => rfl
  case writes => rfl
  case pageId => rfl
  case kernMemCurr => rfl
  case procs => rfl

end Mm
