import OslabRiscv.Mm.Runs

/-!
# Snapshots

A snapshot makes one more entry for a page and marks the page as shared.  It keeps the
invariant as well, so it holds over runs with snapshots until a store comes to the
copy-on-write branch.  There a frame is taken that gets its entry on another way: its
descriptor does not know the address of the page.
-/

namespace Mm

open Outcome

variable {root : Nat → Pte} {own own' : Owners} {s s' : State} {p id k x t i va kva : Nat}
  {π : List Nat}

/-! ## Sharing a page -/

/-- The page `k` is marked as shared `n` times. -/
def shareCount (k : Nat) (n : Int) (s : State) : State :=
  setPage k { s.pages k with status := .copyOnWrite, readMember := n } s

theorem alters_shareCount (hk : own k = some (p, some π)) (hπ : π.length = 3) (hres : Res s k)
    (n : Int) : Alters own s (shareCount k n s) := by
  constructor
  case page =>
    intro x
    by_cases hx : x = k
    · rw [hx]
      simp [shareCount]
    · simp [shareCount, setPage, hx]
  case status =>
    intro x
    by_cases hx : x = k
    · rw [hx]
      exact Or.inr ⟨by simp [shareCount], hres, p, π, hk, hπ⟩
    · left
      simp [shareCount, setPage, hx]
  case entry => exact fun _ _ _ _ _ _ => Or.inl (.refl _)
  case kernel => exact fun _ => rfl
  case pageId => rfl
  case kernMemCurr => rfl
  case procs => rfl
  case sector => rfl
  case writes => rfl

/-- Only the page's own descriptor has its frame. -/
theorem Shape.findFrame_eq (h : Shape root own s) (hk : own k = some (p, some π))
    (hres : Res s k) :
    findPage (fun q => q.kva = (s.pages k).kva) (s.procs p).pagehead s = .ok k := by
  have hgiven := h.frame k (by rw [hk]; simp) hres
  have hfind : (s.procs p).pagehead.find?
      (fun y => (s.pages y).kva = (s.pages k).kva) = some k := by
    refine find?_eq_of_unique ((h.listed p k).mpr ⟨_, hk⟩) (decide_eq_true rfl) fun y hy hPy => ?_
    have heq := of_decide_eq_true hPy
    obtain ⟨r, hr⟩ := (h.listed p y).mp hy
    by_cases hry : Res s y
    · exact h.frame_inj y k (by rw [hr]; simp) (by rw [hk]; simp) hry hres heq
    · cases r with
      | none => exact absurd (h.loose y p hr).1 hry
      | some π' =>
          have hlo := hgiven.1
          rw [← heq, (h.status y p π' hr).2 hry] at hlo
          exact absurd hlo (by decide)
  unfold findPage
  rw [hfind]

/-- The process has no entry for `va`. -/
def Unmapped (own : Owners) (s : State) (p va : Nat) : Prop :=
  ∀ id, own id = some (p, some [vpn1 va, vpn2 va]) →
    (s.mem (s.pages id).kva (vpn0 va)).has present = false ∧
      (s.mem (s.pages id).kva (vpn0 va)).has inSd = false

/-- An address that `pte_checker` finds no entry for has none. -/
theorem Shape.unmapped (h : Shape root own s) (hc : pteChecker va (s.procs p).pgdir s = none) :
    Unmapped own s p va := by
  intro id hid
  rw [(h.leads hid).pteChecker] at hc
  split_ifs at hc with hor
  rw [Bool.or_eq_true, not_or] at hor
  exact ⟨Bool.not_eq_true _ ▸ hor.1, Bool.not_eq_true _ ▸ hor.2⟩

/-- It has none in a state that is alike. -/
theorem Unmapped.like (h : Unmapped own s p va) (hkva : ∀ y, (s'.pages y).kva = (s.pages y).kva)
    (hmem : ∀ a j, Like (s.mem a j) (s'.mem a j)) : Unmapped own s' p va := by
  intro id hid
  obtain ⟨_, hp, hsd⟩ := hmem (s.pages id).kva (vpn0 va)
  rw [hkva, hp, hsd]
  exact h id hid

theorem like_modifyWord {f : Pte → Pte} (hf : ∀ e, Like e (f e)) (t i : Nat) (s : State) (a j : Nat) :
    Like (s.mem a j) ((modifyWord t i f s).mem a j) := by
  by_cases hpair : a = t ∧ j = i
  · rw [hpair.1, hpair.2]
    simp only [modifyWord, setWord, and_self, if_true]
    exact hf _
  · simp only [modifyWord, setWord, if_neg hpair]
    exact .refl _

/-- The first half of `do_snapshot`: the page gets one more mapping. -/
def markShared (t i k : Nat) (s : State) : State :=
  if (s.pages k).status ≠ .copyOnWrite then
    setPage k { s.pages k with status := .copyOnWrite, readMember := 2 }
      (modifyWord t i (cleanAttribute write) s)
  else setPage k { s.pages k with readMember := (s.pages k).readMember + 1 } s

/-- Marking a page shared changes its entry to one like it, and its count. -/
theorem markShared_eq (t i k : Nat) (s : State) :
    ∃ f n, (∀ e, Like e (f e)) ∧ markShared t i k s = shareCount k n (modifyWord t i f s) := by
  unfold markShared
  split_ifs with hst
  · exact ⟨cleanAttribute write, 2, like_write, rfl⟩
  · refine ⟨id, (s.pages k).readMember + 1, fun e => .refl e, ?_⟩
    have hword : modifyWord t i id s = s := by
      simp only [modifyWord, setWord, id]
      congr 1
      funext a j
      split_ifs with hpair
      · rw [hpair.1, hpair.2]
      · rfl
    rw [hword, shareCount, ← not_not.mp hst]

/-- Marking a page shared keeps the invariant. -/
theorem markShared_shares (hs : Sane root own s) (hid : own id = some (p, some [vpn1 va, vpn2 va]))
    (hk : own k = some (p, some π)) (hπ : π.length = 3) (hres : Res s k) {v : Nat}
    (hun : Unmapped own s p v) :
    Sane root own (markShared (s.pages id).kva (vpn0 va) k s) ∧
      ((markShared (s.pages id).kva (vpn0 va) k s).pages k).status = .copyOnWrite ∧
      ((markShared (s.pages id).kva (vpn0 va) k s).pages k).kva = (s.pages k).kva ∧
      Unmapped own (markShared (s.pages id).kva (vpn0 va) k s) p v ∧
      (markShared (s.pages id).kva (vpn0 va) k s).procs = s.procs := by
  obtain ⟨f, n, hf, heq⟩ := markShared_eq (s.pages id).kva (vpn0 va) k s
  rw [heq]
  have hs' := hs.touch hid (by simp) (vpn0 va) hf
  have ha := alters_shareCount (s := modifyWord (s.pages id).kva (vpn0 va) f s) hk hπ hres n
  refine ⟨⟨ha.near hs'.toNear, ha.settled hs'.settled⟩, by simp [shareCount], (ha.page k).1, ?_, rfl⟩
  have hun' : Unmapped own (modifyWord (s.pages id).kva (vpn0 va) f s) p v :=
    hun.like (fun _ => rfl) (like_modifyWord hf _ _ s)
  exact hun'.like (fun y => (ha.page y).1) fun a j => .refl _

/-- The entry that `build_page_helper` makes. -/
def linkShared (t i pa : Nat) (s : State) : State :=
  modifyWord t i (setAttribute leafAttr) (modifyWord t i (setPfn (pa / 4096)) s)

/-- One more entry for a shared page moves no page. -/
theorem alters_linkShared (h : Shape root own s) (hid : own id = some (p, some π))
    (hπ : π.length = 2) {π' : List Nat} (hk : own k = some (p, some π')) (hπ' : π'.length = 3)
    (hst : (s.pages k).status = .copyOnWrite)
    (hp : (s.mem (s.pages id).kva i).has present = false)
    (hsd : (s.mem (s.pages id).kva i).has inSd = false) :
    Alters own s (linkShared (s.pages id).kva i (kva2pa (s.pages k).kva) s) := by
  have hres : Res s k := by
    unfold Res
    rw [hst]
    exact fun hcon => by cases hcon
  have hbits := leaf_bits _ (has_eq_false.mp hsd)
  constructor
  case page => exact fun _ => ⟨rfl, rfl, rfl⟩
  case status => exact fun _ => Or.inl rfl
  case entry =>
    intro y q π₁ j hy hπ₁
    by_cases hpair : (s.pages y).kva = (s.pages id).kva ∧ j = i
    · right
      have hyid : y = id := by
        by_contra hne
        exact h.kva_ne hy hπ₁ (by rw [hid]; simp) (h.table_res hid (by omega)) hne hpair.1
      rw [hyid, hid] at hy
      cases hy
      have hentry : (linkShared (s.pages id).kva i (kva2pa (s.pages k).kva) s).mem
          (s.pages id).kva i = ⟨kva2pa (s.pages k).kva / 4096 % 2 ^ 54,
            (s.mem (s.pages id).kva i).attr ||| leafAttr⟩ := by
        simp [linkShared, modifyWord, setWord, setAttribute, setPfn]
      rw [hpair.1, hpair.2]
      refine ⟨hπ, hp, hsd, ?_, ?_, k, π', hk, hπ', hst, ?_⟩
      · rw [hentry]
        exact has_eq_true.mpr hbits.1
      · rw [hentry]
        exact has_eq_false.mpr hbits.2
      · rw [hentry]
        exact (h.frameOf (by rw [hk]; simp) hres).pageOf_eq rfl
    · left
      simp only [linkShared, modifyWord, setWord, if_neg hpair]
      exact .refl _
  case kernel =>
    intro j
    have hne := h.kva_ne_root (by rw [hid]; simp) (h.table_res hid (by omega))
    simp [linkShared, modifyWord, setWord, hne.symm]
  case pageId => rfl
  case kernMemCurr => rfl
  case procs => rfl
  case sector => rfl
  case writes => rfl

/-- What is left when only entries and counts of shared pages have changed, and tables have
been added. -/
structure Shares (root : Nat → Pte) (own own' : Owners) (s s' : State) : Prop where
  sane : Sane root own' s'
  kept : ∀ x r, own x = some r → own' x = some r
  procs : ∀ q, (s'.procs q).pgdir = (s.procs q).pgdir ∧ (s'.procs q).live = (s.procs q).live

/-- Processes keep their roots. -/
theorem Shares.rooted (h : Shares root own own' s s') (hr : Rooted own s) : Rooted own' s' := by
  intro p hlive
  rw [(h.procs p).2] at hlive
  obtain ⟨d, hd⟩ := hr p hlive
  exact ⟨d, h.kept d _ hd⟩

/-- `build_page_helper` gives a shared page one more address. -/
theorem buildPageHelper_shares (hs : Sane root own s) {d : Nat} (hd : own d = some (p, some []))
    (hu : User root (vpn2 va)) (hun : Unmapped own s p va) (hk : own k = some (p, some π))
    (hπ : π.length = 3) (hst : (s.pages k).status = .copyOnWrite) :
    Holds AnyStop (fun s' => ∃ own', Shares root own own' s s')
      (buildPageHelper va p (kva2pa (s.pages k).kva) s) := by
  unfold buildPageHelper
  rw [hs.shape.dir d p hd]
  refine Holds.bind (tableAt_table hs hd (by simp) fun _ => hu) fun r hr => ?_
  obtain ⟨own₁, m, hT₁⟩ := hr
  obtain ⟨second, s₁⟩ := r
  simp only
  rw [show second = (s₁.pages m).kva from hT₁.kva]
  refine Holds.bind (tableAt_table hT₁.sane hT₁.table (by simp) (by simp)) fun r hr => ?_
  obtain ⟨own₂, l, hT₂⟩ := hr
  obtain ⟨third, s₂⟩ := r
  have hthird : third = (s₂.pages l).kva := hT₂.kva
  have hg := hT₁.grows.trans hT₂.grows (Or.inl rfl)
  simp only
  rw [hthird]
  obtain ⟨hp, hsd⟩ : (s₂.mem (s₂.pages l).kva (vpn0 va)).has present = false ∧
      (s₂.mem (s₂.pages l).kva (vpn0 va)).has inSd = false := by
    rcases hT₂.new with ⟨rfl, hs₂⟩ | ⟨_, _, hempty⟩
    · rcases hT₁.new with ⟨rfl, hs₁⟩ | ⟨_, hnone, _⟩
      · simp only at hs₁ hs₂
        rw [hs₂, hs₁]
        exact hun l hT₂.table
      · exact absurd hT₂.table (hnone l _)
    · rw [← hthird]
      exact hempty (vpn0 va)
  rw [if_neg (by rw [hp]; simp)]
  have hpage : s₂.pages k = s.pages k := by
    refine hg.pages k (by rw [hk]; simp) ?_
    rw [hst]
    exact fun hcon => by cases hcon
  have ha := alters_linkShared hT₂.sane.shape hT₂.table rfl (hg.kept k _ hk) hπ
    (by rw [hpage]; exact hst) hp hsd
  rw [hpage] at ha
  exact ⟨own₂, ⟨ha.near hT₂.sane.toNear, ha.settled hT₂.sane.settled⟩, hg.kept, hg.procs⟩

/-- The address that is found has no entry, by induction on the probes. -/
theorem probe_unmapped {pgdir v : Nat} (fuel : Nat) :
    ∀ {va : Nat}, probe pgdir s fuel va = .ok v → pteChecker v pgdir s = none := by
  induction fuel with
  | zero =>
      intro va h
      cases h
  | succ fuel ih =>
      intro va h
      simp only [probe] at h
      split_ifs at h with hc
      · rw [← Except.ok.inj h]
        exact hc
      · exact ih h

/-- The page at `va` is in memory. -/
def isPresent (p va : Nat) (s : State) : Bool :=
  match pteChecker va (s.procs p).pgdir s with
  | none => false
  | some (t, i) => (s.mem t i).has present

/-- **A snapshot keeps the invariant.** -/
theorem doSnapshot_shares (hs : Sane root own s) (hr : Rooted own s)
    (hlive : (s.procs p).live = true) (hu : User root (vpn2 va)) (hpres : isPresent p va s = true)
    (hnew : ∀ v, probe (s.procs p).pgdir s (2 ^ 27) va = .ok v → User root (vpn2 v)) :
    Holds AnyStop (fun r => ∃ own', Shares root own own' s r.2) (doSnapshot p va s) := by
  obtain ⟨d, hd⟩ := hr p hlive
  unfold doSnapshot
  unfold isPresent at hpres
  cases hc : pteChecker va (s.procs p).pgdir s with
  | none => trivial
  | some ti =>
      obtain ⟨t, i⟩ := ti
      rw [hc] at hpres
      simp only at hpres ⊢
      obtain ⟨hi, hl, _⟩ := leads_of_pteChecker hc
      simp only at hi hl
      obtain ⟨id, hid, ht⟩ := hs.shape.of_leads hd hu hl
      rw [ht, hi] at hpres ⊢
      obtain ⟨k, π, hk, hπ, hres, hpage⟩ := hs.shape.mapped hid hpres
      rw [hpage, hs.shape.findFrame_eq hk hres]
      change Holds AnyStop _ (probe _ s _ va >>= _)
      cases hv : probe (s.procs p).pgdir s (2 ^ 27) va with
      | error e => trivial
      | ok v =>
          have hun := hs.shape.unmapped (probe_unmapped _ hv)
          have huv := hnew v hv
          change Holds AnyStop _ (buildPageHelper v p _ _ >>= _)
          change Holds AnyStop _
            (buildPageHelper v p
              (kva2pa ((markShared (s.pages id).kva (vpn0 va) k s).pages k).kva)
              (markShared (s.pages id).kva (vpn0 va) k s) >>= _)
          obtain ⟨hs₁, hst₁, hkva₁, hun₁, hprocs₁⟩ := markShared_shares hs hid hk hπ hres hun
          refine Holds.bind (buildPageHelper_shares hs₁ hd huv hun₁ hk hπ hst₁) fun s₂ h₂ => ?_
          obtain ⟨own₂, hs₂, hkept₂, hprocs₂⟩ := h₂
          change Holds AnyStop _ (match pteChecker v (s₂.procs p).pgdir s₂ with
            | none => .error .undefined
            | some (t', i') => .ok (v, modifyWord t' i' (cleanAttribute write) s₂))
          rw [hprocs₁] at hprocs₂
          cases hc₂ : pteChecker v (s₂.procs p).pgdir s₂ with
          | none => trivial
          | some r =>
              obtain ⟨t', i'⟩ := r
              obtain ⟨_, hl₂, _⟩ := leads_of_pteChecker hc₂
              obtain ⟨id₂, hid₂, ht₂⟩ := hs₂.shape.of_leads (hkept₂ d _ hd) huv hl₂
              simp only at ht₂
              rw [ht₂]
              exact ⟨own₂, hs₂.touch hid₂ (by simp) i' like_write, hkept₂, hprocs₂⟩

end Mm
