import OslabRiscv.Lib.LittleEndian
import OslabRiscv.Mm.Runs

/-!
# Pages as bytes

The words of a page are 64 bits, of which a page table entry is one way to read them.
A user program reads bytes, through the tables of its process.
-/

namespace Mm

open LittleEndian Outcome

/-! ## Words -/

/-- The 64 bits of a word. -/
def Pte.toWord (e : Pte) : Nat := e.pfn * 1024 + e.attr.toNat

def Pte.ofWord (v : Nat) : Pte := ⟨v / 1024, BitVec.ofNat 10 v⟩

@[simp] theorem Pte.toWord_ofWord (v : Nat) : (Pte.ofWord v).toWord = v := by
  change v / 1024 * 1024 + (BitVec.ofNat 10 v).toNat = v
  rw [BitVec.toNat_ofNat]
  omega

/-- Byte `o` of a page. -/
def byteAt (page : Nat → Pte) (o : Nat) : UInt8 :=
  UInt8.ofNat ((page (o / 8)).toWord / 256 ^ (o % 8))

/-- The page with these bytes. -/
def packPage (b : Nat → UInt8) (j : Nat) : Pte :=
  .ofWord (value ((List.range 8).map fun k => b (8 * j + k)))

@[simp] theorem byteAt_packPage (b : Nat → UInt8) (o : Nat) : byteAt (packPage b) o = b o := by
  have hlen : o % 8 < ((List.range 8).map fun k => b (8 * (o / 8) + k)).length := by
    rw [List.length_map, List.length_range]
    exact Nat.mod_lt _ (by decide)
  unfold byteAt packPage
  rw [Pte.toWord_ofWord, byte_value _ _ hlen]
  simp only [List.getElem_map, List.getElem_range, Nat.div_add_mod]

/-- A page without bits. -/
theorem byteAt_zero (o : Nat) : byteAt (fun _ => ⟨0, 0⟩) o = 0 := by
  unfold byteAt Pte.toWord
  simp

/-! ## What a process reads -/

/-- The byte a user program of process `p` finds at an address. -/
def userByte (p va : Nat) (s : State) : Option UInt8 :=
  match pteChecker va (s.procs p).pgdir s with
  | some (t, i) =>
    if (s.mem t i).has present then some (byteAt (s.mem (pageOf (s.mem t i))) (va % 4096)) else none
  | none => none

variable {root : Nat → Pte} {own : Owners} {p k x d : Nat} {s s' : State}

/-- It is in the page the descriptor stands for. -/
theorem Shape.userByte (h : Shape root own s) {va : Nat} (hk : own k = some (p, some (pathOf va)))
    (hres : Res s k) : userByte p va s = some (byteAt (s.mem (s.pages k).kva) (va % 4096)) := by
  obtain ⟨-, -, t, ht⟩ := h.parent k p _ _ hk
  have hleads := h.leads ht
  rcases h.filled hk ht with ⟨-, hp, hpage, -⟩ | ⟨hout, -⟩
  · unfold Mm.userByte
    rw [hleads.pteChecker, hp]
    simp only [Bool.true_or, if_true, hp, hpage]
  · exact absurd hres hout

/-- Addresses on one page have one path. -/
theorem pathOf_congr {va va' : Nat} (h : va / 4096 = va' / 4096) : pathOf va = pathOf va' := by
  unfold pathOf vpn0 vpn1 vpn2
  have h0 : va / 2 ^ 12 = va' / 2 ^ 12 := h
  have h1 : va / 2 ^ 21 = va' / 2 ^ 21 := by omega
  have h2 : va / 2 ^ 30 = va' / 2 ^ 30 := by omega
  rw [h0, h1, h2]

/-! ## Pages for a process that is being made -/

/-- While none of its pages can be evicted, a process gets pages nobody has had. -/
structure Bare (p : Nat) (s : State) (r : Nat × State) : Prop where
  mem : r.2.mem = s.mem
  list : (r.2.procs p).pagehead = (s.procs p).pagehead ++ [r.1]
  kva : s.kernMemCurr ≤ (r.2.pages r.1).kva ∧ (r.2.pages r.1).kva < r.2.kernMemCurr

/-- A page for a process without evictable pages is a new one. -/
theorem allocPagetable_bare (h : Shape root own s) (hpin : Pinned own s p) (st : PageStatus) :
    Holds AnyStop (Bare p s) (allocPagetable p st s) := by
  unfold allocPagetable
  split_ifs
  · have hnone : (s.procs p).pagehead.find? (fun id => (s.pages id).status = .swapable) = none := by
      refine List.find?_eq_none.2 fun id hid hst => ?_
      obtain ⟨r, hr⟩ := (h.listed p id).1 hid
      have hun := hpin id r hr
      rw [of_decide_eq_true hst] at hun
      cases hun
    unfold doSwap getSwapPage
    rw [hnone]
    trivial
  · refine Holds.bind (findUnused_same _ s) fun q hq => ?_
    obtain ⟨id, s₁⟩ := q
    obtain ⟨hmem, hkern, hprocs⟩ := hq
    simp only at hmem hkern hprocs
    refine ⟨hmem, ?_, ?_, ?_⟩
    · rw [← hprocs]
      simp [setProc, setPage]
    · simp [setProc, setPage]
      omega
    · simp [setProc, setPage]

/-- Writes keep to one page that was handed out, and to pages that are taken. -/
structure WritesAt (t : Nat) (s s' : State) : Prop where
  old : ∀ a < s.kernMemCurr, a ≠ t → s'.mem a = s.mem a
  free : ∀ a, s'.kernMemCurr ≤ a → s'.mem a = s.mem a
  kern : s.kernMemCurr ≤ s'.kernMemCurr

/-- The page that is given is the only one the process has not had before. -/
def GivesOne (p : Nat) (s : State) (r : Nat × State) : Prop :=
  ∀ k ∈ (r.2.procs p).pagehead, k ∈ (s.procs p).pagehead ∨ (r.2.pages k).kva = r.1

theorem Bare.givesOne {r : Nat × State} (h : Bare p s r) :
    GivesOne p s ((r.2.pages r.1).kva, r.2) := by
  intro k hk
  change k ∈ (r.2.procs p).pagehead at hk
  rw [h.list] at hk
  rcases List.mem_append.1 hk with hk | hk
  · exact Or.inl hk
  · rw [List.mem_singleton.1 hk]
    exact Or.inr rfl

/-- A step down the tables writes the table and what it takes. -/
theorem tableAt_writesAt (h : Shape root own s) (hpin : Pinned own s p) {t : Nat}
    (ht : t < s.kernMemCurr) (i : Nat) :
    Holds AnyStop (fun r => WritesAt t s r.2 ∧ GivesOne p s r) (tableAt p t i s) := by
  unfold tableAt
  split_ifs
  · exact ⟨⟨fun _ _ _ => rfl, fun _ _ => rfl, le_rfl⟩, fun _ hk => Or.inl hk⟩
  · refine Holds.bind (allocPagetable_bare h hpin .unswapable) fun r hr => ?_
    have hgives := hr.givesOne
    obtain ⟨id, s₁⟩ := r
    obtain ⟨hmem, -, hlo, hhi⟩ := hr
    simp only at hmem hlo hhi
    have hkeep (a : Nat) (hat : a ≠ t) (hak : a ≠ (s₁.pages id).kva) :
        (modifyWord t i (setAttribute (present ||| user)) (modifyWord t i
          (setPfn (kva2pa (s₁.pages id).kva / 4096)) (clearPgdir (s₁.pages id).kva s₁))).mem a =
          s.mem a := by
      funext j
      simp [modifyWord, setWord, clearPgdir, setContent, hat, hak, hmem]
    refine ⟨⟨fun a ha hat => hkeep a hat (by omega), fun a ha => ?_, ?_⟩, hgives⟩
    · have hge : s₁.kernMemCurr ≤ a := ha
      exact hkeep a (by omega) (by omega)
    · change s.kernMemCurr ≤ s₁.kernMemCurr
      omega

/-- What `alloc_page_helper` does for a process that is being made: its page, with the
content it had; the pages of processes, and those that are free, are left alone. -/
structure Paged (root : Nat → Pte) (own : Owners) (va p : Nat) (s : State) (own' : Owners) (x : Nat)
    (r : Nat × State) : Prop where
  sane : Sane root own' r.2
  page : own' x = some (p, some (pathOf va))
  kva : r.1 = (r.2.pages x).kva
  grows : Grows .unswapable own own' s r.2
  leaves : ∀ k π, own k = some (p, some π) → π.length = 3 →
    r.2.mem (s.pages k).kva = s.mem (s.pages k).kva
  free : ∀ a, r.2.kernMemCurr ≤ a → r.2.mem a = s.mem a
  kern : s.kernMemCurr ≤ r.2.kernMemCurr
  new : (∀ k, own k ≠ some (p, some (pathOf va))) →
    s.kernMemCurr ≤ r.1 ∧ r.1 < r.2.kernMemCurr ∧ r.2.mem r.1 = s.mem r.1
  only : ∀ k π, own' k = some (p, some π) → π.length = 3 →
    own k = some (p, some π) ∨ π = pathOf va

/-- A page of the process stays where it is while a table is written. -/
theorem WritesAt.leaf {id : Nat} {π' : List Nat} (hw : WritesAt (s.pages id).kva s s')
    (h : Shape root own s) (hpin : Pinned own s p) (hid : own id = some (p, some π'))
    (hπ' : π'.length ≤ 2) {π : List Nat} (hk : own k = some (p, some π)) (hπ : π.length = 3) :
    s'.mem (s.pages k).kva = s.mem (s.pages k).kva := by
  have hne : own k ≠ none := by
    rw [hk]
    simp
  refine hw.old _ (h.frame k hne (hpin.res hk)).2.2 (h.kva_ne hid hπ' hne (hpin.res hk) ?_).symm
  intro hcon
  rw [hcon, hk] at hid
  cases hid
  omega

/-- A page of the process is one it had before, or the one that was given. -/
theorem GivesOne.had {own' : Owners} {r : Nat × State} (hg : GivesOne p s r) (h : Shape root own s)
    (h' : Shape root own' r.2) (hkept : ∀ y q, own y = some q → own' y = some q)
    (hpin' : Pinned own' r.2 p) {x : Nat} {π' : List Nat} (hx : own' x = some (p, some π'))
    (hkva : r.1 = (r.2.pages x).kva) {π : List Nat} (hk : own' k = some (p, some π)) :
    own k = some (p, some π) ∨ π = π' := by
  rcases hg k ((h'.listed p k).2 ⟨_, hk⟩) with hold | hnew
  · obtain ⟨q, hq⟩ := (h.listed p k).1 hold
    have hsame := hkept k _ hq
    rw [hk] at hsame
    cases hsame
    exact Or.inl hq
  · rw [hkva] at hnew
    have hkx := h'.frame_inj k x (by rw [hk]; simp) (by rw [hx]; simp) (hpin'.res hk)
      (hpin'.res hx) hnew
    rw [hkx, hx] at hk
    cases hk
    exact Or.inr rfl

/-- The last step of `alloc_page_helper`. -/
structure LastStep (own : Owners) (p t va : Nat) (s : State) (r : Nat × State) : Prop where
  mem : ∀ a, a ≠ t → r.2.mem a = s.mem a
  kern : s.kernMemCurr ≤ r.2.kernMemCurr
  gives : GivesOne p s r
  new : (∀ k, own k ≠ some (p, some (pathOf va))) → s.kernMemCurr ≤ r.1 ∧ r.1 < r.2.kernMemCurr

/-- The last step of `alloc_page_helper` gives the page of the address. -/
theorem allocLeaf_lastStep (h : Shape root own s) (hpin : Pinned own s p) {id va : Nat}
    (hid : own id = some (p, some [vpn1 va, vpn2 va])) :
    Holds AnyStop (LastStep own p (s.pages id).kva va s)
      (if (s.mem (s.pages id).kva (vpn0 va)).has present then
        .ok (pageOf (s.mem (s.pages id).kva (vpn0 va)), s)
      else allocPagetable p .unswapable s >>= fun r =>
        .ok ((r.2.pages r.1).kva, linkLeaf (s.pages id).kva (vpn0 va) va r.1 r.2)) := by
  split_ifs with hthere
  · refine ⟨fun _ _ => rfl, le_rfl, fun _ hk => Or.inl hk, fun hnone => ?_⟩
    -- The entry is that of a page, which the process has had before.
    rcases h.slot id p _ (vpn0 va) hid (by simp) (by simp) with ⟨hor, -⟩ | ⟨k, hk, -⟩
    · rcases hor with ⟨habs, -⟩ | ⟨-, hshared⟩
      · rw [habs] at hthere
        cases hthere
      · exact absurd hshared (hpin.not_shared _)
    · exact absurd hk (hnone k)
  · refine Holds.bind (allocPagetable_bare h hpin .unswapable) fun r hr => ?_
    obtain ⟨hmem, hlist, hlo, hhi⟩ := hr
    have hle : s.kernMemCurr ≤ r.2.kernMemCurr := by omega
    refine ⟨fun a ha => ?_, hle, fun k hk => ?_, fun _ => ⟨hlo, hhi⟩⟩
    · rw [← hmem]
      funext j
      simp [linkLeaf, modifyWord, setWord, setPage, ha]
    · change k ∈ (r.2.procs p).pagehead at hk
      rw [hlist] at hk
      rcases List.mem_append.1 hk with hk | hk
      · exact Or.inl hk
      · right
        rw [List.mem_singleton.1 hk]
        simp [linkLeaf, modifyWord, setWord, setPage]

/-- `alloc_page_helper` gives the page of the address, and leaves the other pages. -/
theorem allocPageHelper_paged (hs : Sane root own s) (hd : own d = some (p, some [])) {va : Nat}
    (hu : User root (vpn2 va)) (hpin : Pinned own s p) :
    Holds AnyStop (fun r => ∃ own' x, Paged root own va p s own' x r)
      (allocPageHelper va p .unswapable s) := by
  have hlow {own : Owners} {s : State} (hs : Sane root own s) (hpin : Pinned own s p) {y : Nat}
      {π : List Nat} (hy : own y = some (p, some π)) : (s.pages y).kva < s.kernMemCurr :=
    (hs.shape.frame y (by rw [hy]; simp) (hpin.res hy)).2.2
  unfold allocPageHelper
  rw [hs.shape.dir d p hd]
  refine Holds.bind ((tableAt_table hs hd (by simp) fun _ => hu).both
    (tableAt_writesAt hs.shape hpin (hlow hs hpin hd) _)) fun r hr => ?_
  obtain ⟨⟨own₁, m, hT₁⟩, hw₁, hone₁⟩ := hr
  obtain ⟨second, s₁⟩ := r
  simp only at hw₁ ⊢
  have hpin₁ : Pinned own₁ s₁ p := hpin.grows hT₁.grows
  rw [show second = (s₁.pages m).kva from hT₁.kva]
  refine Holds.bind ((tableAt_table hT₁.sane hT₁.table (by simp) (by simp)).both
    (tableAt_writesAt hT₁.sane.shape hpin₁ (hlow hT₁.sane hpin₁ hT₁.table) _)) fun r hr => ?_
  obtain ⟨⟨own₂, l, hT₂⟩, hw₂, hone₂⟩ := hr
  obtain ⟨third, s₂⟩ := r
  have hthird : third = (s₂.pages l).kva := hT₂.kva
  simp only [setPage_self]
  simp only at hw₂
  have hpin₂ : Pinned own₂ s₂ p := hpin₁.grows hT₂.grows
  rw [hthird]
  refine ((allocLeaf_mapped hT₂.sane hT₂.table (Or.inr rfl) (fun k hk => hpin₂.res hk)
    (hpin₂.not_shared _)).both (allocLeaf_lastStep hT₂.sane.shape hpin₂ hT₂.table)).mono
    fun r hr => ?_
  obtain ⟨⟨own', x, hM⟩, hL⟩ := hr
  have hg₂ := hT₁.grows.trans hT₂.grows (Or.inl rfl)
  have hg := hg₂.trans hM.grows (Or.inl rfl)
  have hpin' : Pinned own' r.2 p := hpin.grows hg
  have hpages₁ (k : Nat) (q : Option (List Nat)) (hk : own k = some (p, q)) :
      s₁.pages k = s.pages k :=
    hT₁.grows.pages k (by rw [hk]; simp) (by rw [hpin k q hk]; decide)
  have hpages₂ (k : Nat) (q : Option (List Nat)) (hk : own₁ k = some (p, q)) :
      s₂.pages k = s₁.pages k :=
    hT₂.grows.pages k (by rw [hk]; simp) (by rw [hpin₁ k q hk]; decide)
  have hl : (s₂.pages l).kva < s₂.kernMemCurr := hlow hT₂.sane hpin₂ hT₂.table
  have hkern₁ : s.kernMemCurr ≤ s₁.kernMemCurr := hw₁.kern
  have hkern₂ : s₁.kernMemCurr ≤ s₂.kernMemCurr := hw₂.kern
  have hkern : s₂.kernMemCurr ≤ r.2.kernMemCurr := hL.kern
  have hmem : ∀ a, a ≠ (s₂.pages l).kva → r.2.mem a = s₂.mem a := hL.mem
  refine ⟨own', x, hM.sane, hM.page, hM.kva, hg, fun k π hk hπ => ?_, fun a ha => ?_, ?_,
    fun hnone => ?_, fun k π hk hπ => ?_⟩
  · have hk₁ := hT₁.grows.kept k _ hk
    have hk₂ := hT₂.grows.kept k _ hk₁
    have hp₁ := hpages₁ k _ hk
    have hp₂ := hpages₂ k _ hk₁
    have hmem₁ := hw₁.leaf hs.shape hpin hd (by simp) hk hπ
    have hmem₂ := hw₂.leaf hT₁.sane.shape hpin₁ hT₁.table (by simp) hk₁ hπ
    rw [hp₁] at hmem₂
    rw [← hmem₁, ← hmem₂]
    refine hmem _ ?_
    rw [← hp₁, ← hp₂]
    refine (hT₂.sane.shape.kva_ne hT₂.table (by simp) (by rw [hk₂]; simp) (hpin₂.res hk₂) ?_).symm
    intro hcon
    have htab := hT₂.table
    rw [hcon, hk₂] at htab
    cases htab
    simp at hπ
  · rw [hmem a (by omega), hw₂.free a (by omega)]
    exact hw₁.free a (by omega)
  · omega
  · have hnone₂ : ∀ k, own₂ k ≠ some (p, some (pathOf va)) := by
      intro k hk
      rcases hone₂.had hT₁.sane.shape hT₂.sane.shape hT₂.grows.kept hpin₂ hT₂.table hT₂.kva hk with
        hk | hk
      · rcases hone₁.had hs.shape hT₁.sane.shape hT₁.grows.kept hpin₁ hT₁.table hT₁.kva hk with
          hk | hk
        · exact hnone k hk
        · exact absurd (congrArg List.length hk) (by simp [pathOf])
      · exact absurd (congrArg List.length hk) (by simp [pathOf])
    have hnew : s₂.kernMemCurr ≤ r.1 ∧ r.1 < r.2.kernMemCurr := hL.new hnone₂
    obtain ⟨hlo, hhi⟩ := hnew
    refine ⟨by omega, hhi, ?_⟩
    rw [hmem _ (by omega), hw₂.free _ hlo]
    exact hw₁.free _ (by omega)
  · rcases hL.gives.had hT₂.sane.shape hM.sane.shape hM.grows.kept hpin' hM.page hM.kva hk with
      hk | hk
    · rcases hone₂.had hT₁.sane.shape hT₂.sane.shape hT₂.grows.kept hpin₂ hT₂.table hT₂.kva hk with
        hk | hk
      · rcases hone₁.had hs.shape hT₁.sane.shape hT₁.grows.kept hpin₁ hT₁.table hT₁.kva hk with
          hk | hk
        · exact Or.inl hk
        · exact absurd (congrArg List.length hk) (by rw [hπ]; simp)
      · exact absurd (congrArg List.length hk) (by rw [hπ]; simp)
    · exact Or.inr hk

end Mm
