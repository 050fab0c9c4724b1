import OslabRiscv.Mm.Runs

/-!
# Entries laid over the page tables

The entries for shared pages stand in the last-level tables of several processes and lead to a
page of one of them.  The invariant of the page tables knows nothing of such entries.  So
the state is seen as one that has none, which the invariant describes, with them laid over it,
and every step of the kernel does to the two what it does to the one without.
-/

namespace Mm

open Outcome

variable {root : Nat → Pte} {own own' : Owners} {s s' : State} {l : List (Nat × Nat)}
  {c : Nat → Nat → Pte} {p k id t i va kva : Nat} {π : List Nat} {st : PageStatus}

/-- The entries `l` have been replaced. -/
def overlay (l : List (Nat × Nat)) (c : Nat → Nat → Pte) (s : State) : State :=
  { s with mem := fun t i => if l.contains (t, i) then c t i else s.mem t i }

/-- The same with what else a call returns. -/
def overlayed {α : Type} (l : List (Nat × Nat)) (c : Nat → Nat → Pte) (r : α × State) :
    α × State :=
  (r.1, overlay l c r.2)

/-- An entry that is not in `l` is as it was. -/
theorem overlay_mem (h : (t, i) ∉ l) : (overlay l c s).mem t i = s.mem t i :=
  if_neg (mt List.contains_iff_mem.mp h)

/-- An entry of `l` is what has been laid over it. -/
theorem overlay_mem_of (h : (t, i) ∈ l) : (overlay l c s).mem t i = c t i :=
  if_pos (List.contains_iff_mem.mpr h)

/-- What is there already is laid over it. -/
theorem overlay_self (l : List (Nat × Nat)) (s : State) : overlay l s.mem s = s := by
  unfold overlay
  congr 1
  funext t i
  exact ite_self _

/-- A call does the same under the entries `l`. -/
def Under {α : Type} (l : List (Nat × Nat)) (f : State → Except Stop (α × State)) (s : State) :
    Prop :=
  ∀ c, f (overlay l c s) = (f s).map (overlayed l c)

/-- What is laid over does not change. -/
theorem Under.kept {α : Type} {f : State → Except Stop (α × State)} (h : Under l f s) {a : α}
    (hf : f s = .ok (a, s')) (ht : (t, i) ∈ l) : s'.mem t i = s.mem t i := by
  have hself := h s.mem
  rw [overlay_self, hf] at hself
  have hstate : s' = overlay l s.mem s' := (Prod.mk.inj (Except.ok.inj hself)).2
  rw [hstate]
  exact overlay_mem_of ht

/-- One call after another. -/
theorem Under.bind {α β : Type} {f : State → Except Stop (α × State)}
    {g : α × State → Except Stop (β × State)} (hf : Under l f s)
    (hg : ∀ a s', f s = .ok (a, s') → Under l (fun s => g (a, s)) s') :
    Under l (fun s => f s >>= g) s := by
  intro c
  simp only
  rw [hf c]
  cases hx : f s with
  | error e => rfl
  | ok r =>
      obtain ⟨a, s'⟩ := r
      exact hg a s' hx c

/-- A word that is not in `l` may be set before or after. -/
theorem setWord_overlay (h : (t, i) ∉ l) (e : Pte) :
    setWord t i e (overlay l c s) = overlay l c (setWord t i e s) := by
  unfold setWord overlay
  congr 1
  funext a j
  by_cases haj : a = t ∧ j = i
  · obtain ⟨rfl, rfl⟩ := haj
    simp [h]
  · simp [haj]

/-- The same for a word that is changed. -/
theorem modifyWord_overlay (h : (t, i) ∉ l) (f : Pte → Pte) :
    modifyWord t i f (overlay l c s) = overlay l c (modifyWord t i f s) := by
  unfold modifyWord
  rw [overlay_mem h, setWord_overlay h]

/-- The same for the content of a frame without an entry of `l`. -/
theorem setContent_overlay (h : ∀ i, (t, i) ∉ l) (b : Nat → Pte) :
    setContent t b (overlay l c s) = overlay l c (setContent t b s) := by
  unfold setContent overlay
  congr 1
  funext a j
  by_cases ha : a = t
  · simp [ha, h]
  · simp [ha]

/-- The same for a table that is cleared. -/
theorem clearPgdir_overlay (h : ∀ i, (t, i) ∉ l) :
    clearPgdir t (overlay l c s) = overlay l c (clearPgdir t s) := setContent_overlay h _

/-- The same for a frame that goes to the disk. -/
theorem sdWrite_overlay (h : ∀ i, (t, i) ∉ l) (n : Nat) :
    sdWrite t n (overlay l c s) = overlay l c (sdWrite t n s) := by
  unfold sdWrite
  simp only [overlay_mem (h _)]
  rfl

/-- The same for a frame that comes from the disk. -/
theorem sdRead_overlay (h : ∀ i, (t, i) ∉ l) (n : Nat) :
    sdRead t n (overlay l c s) = overlay l c (sdRead t n s) := by
  unfold sdRead
  simp only [overlay_mem (h _)]
  exact setContent_overlay h _

/-- The search for a descriptor reads no entry. -/
theorem findUnused_under (fuel : Nat) : ∀ s, Under l (findUnused fuel) s := by
  induction fuel with
  | zero => exact fun _ _ => rfl
  | succ fuel ih =>
      intro s c
      unfold findUnused
      change (if pageNum ≤ s.pageId then _ else if (s.pages s.pageId).status = .unused then _
        else if s.pageId + 1 = pageNum then findUnused fuel (overlay l c { s with pageId := 0 })
        else findUnused fuel (overlay l c { s with pageId := s.pageId + 1 })) = _
      split_ifs
      · rfl
      · rfl
      · exact ih _ c
      · exact ih _ c

/-! ## What the entries may be -/

/-- The entries `l` are in last-level tables, and there is nothing behind them. -/
structure Covers (own : Owners) (l : List (Nat × Nat)) (s : State) : Prop where
  table : ∀ e ∈ l, ∃ id q π, own id = some (q, some π) ∧ π.length = 2 ∧ e.1 = (s.pages id).kva
  absent : ∀ e ∈ l, (s.mem e.1 e.2).has present = false ∧ (s.mem e.1 e.2).has inSd = false

/-- An entry that is present has nothing laid over it. -/
theorem Covers.not_present (hc : Covers own l s) (hp : (s.mem t i).has present = true) :
    (t, i) ∉ l := by
  intro hl
  rw [(hc.absent _ hl).1] at hp
  cases hp

/-- The content of any other page. -/
theorem Covers.not_page (hc : Covers own l s) (h : Shape root own s) (hk : own k ≠ none)
    (hres : Res s k) (hno : ∀ q π, own k = some (q, some π) → π.length ≠ 2) (j : Nat) :
    ((s.pages k).kva, j) ∉ l := by
  intro hl
  obtain ⟨id, q, π, hid, hπ, heq⟩ := hc.table _ hl
  have hsame := h.frame_inj k id hk (by rw [hid]; simp) hres (h.table_res hid hπ.le) heq
  rw [← hsame] at hid
  exact hno q π hid hπ

/-- The tables on the way to an address lead there still. -/
theorem Covers.leads (hc : Covers own l s) {pgdir : Nat} (hl : Leads pgdir va t s) :
    Leads pgdir va t (overlay l c s) := by
  have htop : (overlay l c s).mem pgdir (vpn2 va) = s.mem pgdir (vpn2 va) :=
    overlay_mem (hc.not_present hl.top)
  have hsecond : (overlay l c s).mem (pageOf (s.mem pgdir (vpn2 va))) (vpn1 va) =
      s.mem (pageOf (s.mem pgdir (vpn2 va))) (vpn1 va) := overlay_mem (hc.not_present hl.second)
  refine ⟨?_, ?_, ?_⟩
  · rw [htop]
    exact hl.top
  · rw [htop, hsecond]
    exact hl.second
  · rw [htop, hsecond]
    exact hl.third

/-- The tables of a walk are the same without the entries. -/
theorem Covers.leads_under (hc : Covers own l s) (h : Shape root own s) {d : Nat}
    (hd : own d = some (p, some [])) (hu : User root (vpn2 va))
    (hl : Leads (s.procs p).pgdir va t (overlay l c s)) : Leads (s.procs p).pgdir va t s := by
  obtain ⟨htop, hsecond, hthird⟩ := hl
  have hslot : ∀ {x : Nat} {π : List Nat}, own x = some (p, some π) → π.length ≤ 1 →
      ∀ j, (overlay l c s).mem (s.pages x).kva j = s.mem (s.pages x).kva j := by
    intro x π hx hπ j
    refine overlay_mem (hc.not_page h (by rw [hx]; simp) (h.table_res hx (by omega))
      (fun q π' hx' hπ' => ?_) j)
    rw [hx] at hx'
    cases hx'
    omega
  have hdir := h.dir d p hd
  rw [hdir] at htop hsecond hthird ⊢
  rw [hslot hd (by simp)] at htop hsecond hthird
  rcases h.slot d p [] (vpn2 va) hd (by simp) (fun _ => hu) with ⟨hor, _⟩ | ⟨m, hm, _⟩
  · rcases hor with ⟨habs, _⟩ | ⟨hlen, _⟩
    · rw [habs] at htop
      cases htop
    · cases hlen
  · have hpage := (h.filled_table hm hd (by simp)).2
    rw [hpage, hslot hm (by simp)] at hsecond hthird
    refine ⟨htop, ?_, ?_⟩
    · rw [hpage]
      exact hsecond
    · rw [hpage]
      exact hthird

/-- The walk that finds an entry finds it still. -/
theorem Covers.getPte (hc : Covers own l s) {pgdir : Nat} {r : Nat × Nat}
    (h : getPte va pgdir s = .ok r) : getPte va pgdir (overlay l c s) = .ok r := by
  obtain ⟨hi, hl, hp⟩ := leads_of_getPte h
  obtain ⟨t, i⟩ := r
  simp only at hi hl hp
  rw [hi] at hp ⊢
  refine (hc.leads hl).getPte ?_
  rw [overlay_mem (hc.not_present hp)]
  exact hp

/-! ## Eviction and allocation -/

/-- What `swap_to_sd` leaves, where `get_pte` finds the entry. -/
def putAway (k t i : Nat) (s : State) : State :=
  let frame := pageOf (s.mem t i)
  let s' := modifyWord t i (cleanAttribute present) (modifyWord t i (setAttribute inSd)
    (getSector s).2)
  let s' := modifyWord t i (setPfn s.sector) (clearPgdir frame (sdWrite frame s.sector s'))
  setPage k { s.pages k with pte := some (t, i), status := .notInMem, kva := 0 } s'

/-- With its entry found, a page is put away behind this entry. -/
theorem swapToSd_eq (h : getPte (s.pages k).uva (s.procs p).pgdir s = .ok (t, i)) :
    swapToSd k p s = .ok ((s.pages k).kva, putAway k t i s) := by
  have h' : getPte (s.pages k).uva (s.procs p).pgdir (getSector s).2 = .ok (t, i) := h
  have hframe : pageOf ((modifyWord t i (cleanAttribute present)
      (modifyWord t i (setAttribute inSd) (getSector s).2)).mem t i) = pageOf (s.mem t i) := by
    simp only [modifyWord, setWord, and_self, if_true]
    rfl
  unfold swapToSd putAway
  simp only [getSector] at h' hframe ⊢
  rw [h']
  simp only [bind, Except.bind, hframe]
  rfl

/-- Putting a page away commutes with what is laid over other entries. -/
theorem putAway_overlay (hti : (t, i) ∉ l) (hframe : ∀ j, (pageOf (s.mem t i), j) ∉ l) :
    putAway k t i (overlay l c s) = overlay l c (putAway k t i s) := by
  unfold putAway
  simp only [overlay_mem hti]
  rw [show (getSector (overlay l c s)).2 = overlay l c (getSector s).2 from rfl,
    modifyWord_overlay hti, modifyWord_overlay hti, show (overlay l c s).sector = s.sector from rfl,
    sdWrite_overlay hframe, clearPgdir_overlay hframe, modifyWord_overlay hti]
  rfl

/-- An eviction reads nothing of what is laid over. -/
theorem doSwap_under (h : Shape root own s) (hset : Settled own s) (hc : Covers own l s) :
    Under l (doSwap p) s := by
  intro c
  unfold doSwap
  change getSwapPage (s.procs p).pagehead s >>= (fun id => swapToSd id p (overlay l c s)) = _
  cases hget : getSwapPage (s.procs p).pagehead s with
  | error e => rfl
  | ok k =>
      obtain ⟨hmem, hst⟩ := getSwapPage_ok hget
      obtain ⟨id, hid, hown, hres, hpte, hp, _, hframe⟩ := h.swapable_entry hset hmem hst
      have hti := hc.not_present hp
      change swapToSd k p (overlay l c s) = (swapToSd k p s).map _
      rw [swapToSd_eq hpte, swapToSd_eq (hc.getPte hpte), putAway_overlay hti]
      · rfl
      · intro j
        rw [hframe]
        refine hc.not_page h (by rw [hown]; simp) hres (fun q π hk hπ => ?_) j
        rw [hown] at hk
        cases hk
        cases hπ

/-- The rest of `allocPagetable`. -/
theorem allocPagetable_under (h : Shape root own s) (hset : Settled own s)
    (hc : Covers own l s) (p : Nat) (st : PageStatus) : Under l (allocPagetable p st) s := by
  intro c
  unfold allocPagetable
  change (if (s.procs p).pagenum = (s.procs p).upbound then _ else _) = _
  split_ifs with hfull
  · rw [doSwap_under h hset hc c]
    cases hx : doSwap p s with
    | error e => rfl
    | ok r =>
        change findUnused (pageNum + 1) (overlay l c r.2) >>= _ =
          (findUnused (pageNum + 1) r.2 >>= _).map _
        rw [findUnused_under _ r.2 c]
        cases findUnused (pageNum + 1) r.2 with
        | error e => rfl
        | ok r' => rfl
  · rw [findUnused_under _ s c]
    cases findUnused (pageNum + 1) s with
    | error e => rfl
    | ok r' => rfl

/-- Tables stay tables. -/
theorem Covers.grows (hc : Covers own l s) (h : Shape root own s) (hg : Grows st own own' s s')
    (hmem : ∀ e ∈ l, s'.mem e.1 e.2 = s.mem e.1 e.2) : Covers own' l s' := by
  refine ⟨fun e he => ?_, fun e he => ?_⟩
  · obtain ⟨id, q, π, hid, hπ, heq⟩ := hc.table e he
    refine ⟨id, q, π, hg.kept id _ hid, hπ, ?_⟩
    rw [hg.pages id (by rw [hid]; simp) (by rw [((h.status id q π hid).1 (by omega)).1]; decide)]
    exact heq
  · rw [hmem e he]
    exact hc.absent e he

/-- A page that is taken from the pool leaves what is covered. -/
theorem Covers.alloc (hc : Covers own l s) (h : Shape root own s) {r : Nat × State}
    (hr : Alloc root own p st s r) (hmem : ∀ e ∈ l, r.2.mem e.1 e.2 = s.mem e.1 e.2) :
    Covers (hold own s.pageId p) l r.2 := by
  refine ⟨fun e he => ?_, fun e he => ?_⟩
  · obtain ⟨id, q, π, hid, hπ, heq⟩ := hc.table e he
    refine ⟨id, q, π, ?_, hπ, ?_⟩
    · rw [hold_other _ _ (Takes.hold_some h id hid), hid]
    · rw [hr.pages id (by rw [hid]; simp) (by
        rw [((h.status id q π hid).1 (by omega)).1]
        decide)]
      exact heq
  · rw [hmem e he]
    exact hc.absent e he

/-! ## Walking -/

/-- A step down the tables reads nothing of what is laid over. -/
theorem tableAt_under (hs : Sane root own s) (hc : Covers own l s)
    (hid : own id = some (p, some π)) (hπ : π.length ≤ 1) :
    Under l (tableAt p (s.pages id).kva i) s := by
  have h := hs.shape
  have hti : ((s.pages id).kva, i) ∉ l := by
    refine hc.not_page h (by rw [hid]; simp) (h.table_res hid (by omega)) (fun q π' hid' hπ' => ?_) i
    rw [hid] at hid'
    cases hid'
    omega
  intro c
  unfold tableAt
  rw [overlay_mem hti]
  split_ifs with hp
  · rfl
  · rw [allocPagetable_under h hs.settled hc p _ c]
    have halloc := allocPagetable_alloc (p := p) hs.toNear hs.settled (Or.inr rfl)
    cases hx : allocPagetable p .unswapable s with
    | error e => rfl
    | ok r =>
        obtain ⟨x, s₁⟩ := r
        have hr := halloc.of_ok hx
        have hc₁ := hc.alloc h hr fun e he =>
          (allocPagetable_under h hs.settled hc p _).kept hx he
        have hxo : hold own s.pageId p x = some (p, none) := by
          rw [show x = s.pageId from hr.id]
          exact hold_self own s.pageId p
        have hfree : ∀ j, ((s₁.pages x).kva, j) ∉ l := by
          refine hc₁.not_page hr.near.shape (by rw [hxo]; simp)
            (hr.near.shape.loose x p hxo).1 fun q π' hq => ?_
          rw [hxo] at hq
          cases hq
        change Except.ok _ = Except.ok _
        congr 1
        simp only [overlayed]
        rw [show (overlay l c s₁).pages = s₁.pages from rfl, clearPgdir_overlay hfree,
          modifyWord_overlay hti, modifyWord_overlay hti]

/-- The address has no entry in `l`. -/
def Off (own : Owners) (l : List (Nat × Nat)) (s : State) (p va : Nat) : Prop :=
  ∀ id, own id = some (p, some [vpn1 va, vpn2 va]) → ((s.pages id).kva, vpn0 va) ∉ l

/-- The walk finds the same. -/
theorem pteChecker_overlay (hs : Sane root own s) (hc : Covers own l s) {d : Nat}
    (hd : own d = some (p, some [])) (hu : User root (vpn2 va)) (hoff : Off own l s p va) :
    pteChecker va (s.procs p).pgdir (overlay l c s) = pteChecker va (s.procs p).pgdir s := by
  have h := hs.shape
  have hslot : ∀ {x : Nat} {π : List Nat}, own x = some (p, some π) → π.length ≤ 1 →
      ∀ j, (overlay l c s).mem (s.pages x).kva j = s.mem (s.pages x).kva j := by
    intro x π hx hπ j
    refine overlay_mem (hc.not_page h (by rw [hx]; simp) (h.table_res hx (by omega))
      (fun q π' hx' hπ' => ?_) j)
    rw [hx] at hx'
    cases hx'
    omega
  unfold pteChecker
  rw [h.dir d p hd, hslot hd (by simp)]
  rcases h.slot d p [] (vpn2 va) hd (by simp) (fun _ => hu) with ⟨hor, _⟩ | ⟨m, hm, _⟩
  · rcases hor with ⟨habs, _⟩ | ⟨hlen, _⟩
    · simp only [habs, Bool.false_eq_true, if_false]
    · cases hlen
  · rw [(h.filled_table hm hd (by simp)).1, (h.filled_table hm hd (by simp)).2]
    simp only [if_true]
    rw [hslot hm (by simp)]
    rcases h.slot m p _ (vpn1 va) hm (by simp) (by simp) with ⟨hor, _⟩ | ⟨x, hx, _⟩
    · rcases hor with ⟨habs, _⟩ | ⟨hlen, _⟩
      · simp only [habs, Bool.false_eq_true, if_false]
      · cases hlen
    · rw [(h.filled_table hx hm (by simp)).1, (h.filled_table hx hm (by simp)).2]
      simp only [if_true]
      rw [overlay_mem (hoff x hx)]

/-- The tables that have been made have no entry in `l`. -/
theorem Covers.off (hc : Covers own l s) (h : Shape root own s) (h' : Shape root own' s')
    (hg : Grows st own own' s s') (hoff : Off own l s p va) : Off own' l s' p va := by
  intro x hx hl
  obtain ⟨id, q, π, hid, hπ, heq⟩ := hc.table _ hl
  have hpage : s'.pages id = s.pages id :=
    hg.pages id (by rw [hid]; simp) (by rw [((h.status id q π hid).1 (by omega)).1]; decide)
  have hid' := hg.kept id _ hid
  have hsame := h'.frame_inj x id (by rw [hx]; simp) (by rw [hid']; simp)
    (h'.table_res hx (by simp)) (h'.table_res hid' (by omega)) (by rw [hpage]; exact heq)
  rw [hsame, hid'] at hx
  rw [hx] at hid
  refine hoff id hid ?_
  rw [← hpage, ← hsame]
  exact hl

/-- `alloc_page_helper` reads nothing of what is laid over. -/
theorem allocPageHelper_under (hs : Sane root own s) (hc : Covers own l s) {d : Nat}
    (hd : own d = some (p, some [])) (hu : User root (vpn2 va)) (hoff : Off own l s p va) :
    Under l (allocPageHelper va p st) s := by
  intro c
  have hdir := hs.shape.dir d p hd
  unfold allocPageHelper
  change tableAt p (s.procs p).pgdir (vpn2 va) (overlay l c s) >>= _ = _
  rw [hdir, tableAt_under hs hc hd (by simp) c]
  have htable := tableAt_table hs hd (by simp) (fun _ => hu)
  cases hx : tableAt p (s.pages d).kva (vpn2 va) s with
  | error e => rfl
  | ok r =>
      obtain ⟨own₁, m, hT₁⟩ := htable.of_ok hx
      obtain ⟨second, s₁⟩ := r
      have hc₁ : Covers own₁ l s₁ := hc.grows hs.shape hT₁.grows fun e he =>
        (tableAt_under hs hc hd (by simp)).kept hx he
      have hoff₁ := hc.off hs.shape hT₁.sane.shape hT₁.grows hoff
      have hsecond : second = (s₁.pages m).kva := hT₁.kva
      change tableAt p second (vpn1 va) (overlay l c s₁) >>= _ =
        (tableAt p second (vpn1 va) s₁ >>= _).map _
      rw [hsecond, tableAt_under hT₁.sane hc₁ hT₁.table (by simp) c]
      have htable₁ := tableAt_table (i := vpn1 va) hT₁.sane hT₁.table (by simp) (by simp)
      cases hx₁ : tableAt p (s₁.pages m).kva (vpn1 va) s₁ with
      | error e => rfl
      | ok r₁ =>
          obtain ⟨own₂, x, hT₂⟩ := htable₁.of_ok hx₁
          obtain ⟨third, s₂⟩ := r₁
          have hc₂ : Covers own₂ l s₂ := hc₁.grows hT₁.sane.shape hT₂.grows fun e he =>
            (tableAt_under hT₁.sane hc₁ hT₁.table (by simp)).kept hx₁ he
          have hthird : third = (s₂.pages x).kva := hT₂.kva
          have hleaf : (third, vpn0 va) ∉ l := by
            rw [hthird]
            exact hc₁.off hT₁.sane.shape hT₂.sane.shape hT₂.grows hoff₁ x hT₂.table
          change (if ((overlay l c s₂).mem third (vpn0 va)).has present then _ else _) =
            (if (s₂.mem third (vpn0 va)).has present then _ else _ : Except Stop _).map _
          rw [overlay_mem hleaf]
          split_ifs
          · rfl
          · rw [allocPagetable_under hT₂.sane.shape hT₂.sane.settled hc₂ p _ c]
            cases allocPagetable p st s₂ with
            | error e => rfl
            | ok r₂ =>
                obtain ⟨y, s₃⟩ := r₂
                change Except.ok _ = Except.ok _
                congr 1
                simp only [overlayed]
                rw [show ∀ q, setPage y q (overlay l c s₃) = overlay l c (setPage y q s₃) from
                  fun _ => rfl, modifyWord_overlay hleaf, modifyWord_overlay hleaf]
                rfl

/-! ## Page faults -/

/-- A step does the same under the entries `l`. -/
def Same (l : List (Nat × Nat)) (f : State → Except Stop State) (s : State) : Prop :=
  ∀ c, f (overlay l c s) = (f s).map (overlay l c)

/-- A call that runs the same with and without leaves what is laid over. -/
theorem Same.kept {f : State → Except Stop State} (h : Same l f s) (hf : f s = .ok s')
    (ht : (t, i) ∈ l) : s'.mem t i = s.mem t i := by
  have hself := h s.mem
  rw [overlay_self, hf] at hself
  rw [Except.ok.inj hself]
  exact overlay_mem_of ht

/-- A page that comes back runs the same. -/
theorem swapToMem_same (hti : (t, i) ∉ l) (hkva : ∀ j, (kva, j) ∉ l) :
    Same l (swapToMem t i va kva p) s := by
  intro c
  unfold swapToMem
  rw [overlay_mem hti]
  have hfind : findPage (fun q => q.pte = some (t, i)) ((overlay l c s).procs p).pagehead
      (overlay l c s) = findPage (fun q => q.pte = some (t, i)) (s.procs p).pagehead s := rfl
  simp only
  rw [hfind]
  cases findPage (fun q => q.pte = some (t, i)) (s.procs p).pagehead s with
  | error e => rfl
  | ok id =>
      change (if (s.pages id).status ≠ .notInMem then _ else if (s.pages id).kva ≠ 0 then _
        else _) = (if (s.pages id).status ≠ .notInMem then _ else if (s.pages id).kva ≠ 0 then _
        else _ : Except Stop State).map _
      split_ifs
      · rfl
      · rfl
      · change Except.ok _ = Except.ok _
        congr 1
        rw [show ∀ q, setPage id q (overlay l c s) = overlay l c (setPage id q s) from
          fun _ => rfl, sdRead_overlay hkva, modifyWord_overlay hti, modifyWord_overlay hti,
          modifyWord_overlay hti]
        rfl

/-- The same with the frame that is found for it. -/
theorem swapIn_same (hs : Sane root own s) (hc : Covers own l s) (hti : (t, i) ∉ l) :
    Same l (swapIn t i va p) s := by
  intro c
  unfold swapIn
  change (if (s.procs p).pagenum = (s.procs p).upbound then _ else _) = _
  split_ifs
  · rw [doSwap_under hs.shape hs.settled hc c]
    have hspill := doSwap_spill (p := p) hs.shape hs.settled
    cases hx : doSwap p s with
    | error e => rfl
    | ok r =>
        obtain ⟨k, id, i', π, hkva, hsp⟩ := hspill.of_ok hx
        obtain ⟨kva, s₁⟩ := r
        have hpage : own k = some (p, some (i' :: π)) := hsp.page
        have hfree : ∀ j, (kva, j) ∉ l := by
          rw [show kva = (s.pages k).kva from hkva]
          refine hc.not_page hs.shape (by rw [hpage]; simp) hsp.res fun q π' hq hπ' => ?_
          rw [hpage] at hq
          cases hq
          have := hsp.len
          simp at hπ'
          omega
        exact swapToMem_same hti hfree c
  · rfl

/-- A load fault at another address runs the same. -/
theorem handleLoadPageFault_same (hs : Sane root own s) (hr : Rooted own s)
    (hlive : (s.procs p).live = true) (hu : User root (vpn2 va)) (hc : Covers own l s)
    (hoff : Off own l s p va) : Same l (handleLoadPageFault p va) s := by
  obtain ⟨d, hd⟩ := hr p hlive
  intro c
  unfold handleLoadPageFault
  rw [show ((overlay l c s).procs p).pgdir = (s.procs p).pgdir from rfl,
    pteChecker_overlay hs hc hd hu hoff]
  cases hw : pteChecker va (s.procs p).pgdir s with
  | none =>
      simp only
      rw [allocPageHelper_under hs hc hd hu hoff c]
      cases allocPageHelper va p .swapable s with
      | error e => rfl
      | ok r => rfl
  | some ti =>
      obtain ⟨t, i⟩ := ti
      obtain ⟨id, k, π, hid, rfl, rfl, _⟩ := fault_mapped hs hr hlive hu hw
      have hti := hoff id hid
      simp only
      rw [overlay_mem hti]
      split_ifs
      · exact swapIn_same hs hc hti c
      · rfl
      · rw [modifyWord_overlay hti]
        rfl

/-- A store fault at another address runs the same. -/
theorem handleStorePageFault_same (hs : Sane root own s) (hr : Rooted own s) (hun : Unshared s)
    (hlive : (s.procs p).live = true) (hu : User root (vpn2 va)) (hc : Covers own l s)
    (hoff : Off own l s p va) : Same l (handleStorePageFault p va) s := by
  obtain ⟨d, hd⟩ := hr p hlive
  intro c
  unfold handleStorePageFault
  rw [show ((overlay l c s).procs p).pgdir = (s.procs p).pgdir from rfl,
    pteChecker_overlay hs hc hd hu hoff]
  cases hw : pteChecker va (s.procs p).pgdir s with
  | none =>
      simp only
      rw [allocPageHelper_under hs hc hd hu hoff c]
      cases allocPageHelper va p .swapable s with
      | error e => rfl
      | ok r => rfl
  | some ti =>
      obtain ⟨t, i⟩ := ti
      obtain ⟨id, k, π, hid, rfl, rfl, _⟩ := fault_mapped hs hr hlive hu hw
      have hti := hoff id hid
      simp only
      rw [overlay_mem hti]
      split_ifs
      · exact swapIn_same hs hc hti c
      · rfl
      · rw [modifyWord_overlay hti]
        rfl
      · -- There is nothing to copy.
        unfold copyOnWrite
        rw [overlay_mem hti]
        have hfind : findPage (fun q => q.kva = pageOf (s.mem (s.pages id).kva (vpn0 va)))
            ((overlay l c s).procs p).pagehead (overlay l c s) =
          findPage (fun q => q.kva = pageOf (s.mem (s.pages id).kva (vpn0 va)))
            (s.procs p).pagehead s := rfl
        simp only
        rw [hfind]
        cases findPage (fun q => q.kva = pageOf (s.mem (s.pages id).kva (vpn0 va)))
            (s.procs p).pagehead s with
        | error e => rfl
        | ok x =>
            change (if (s.pages x).status ≠ .copyOnWrite then _ else _) =
              (if (s.pages x).status ≠ .copyOnWrite then _ else _ : Except Stop State).map _
            rw [if_pos (hun x), if_pos (hun x)]
            rfl

/-! ## What stays -/

/-- Tables, and pages that cannot be evicted, stay where they are, and processes keep their
root tables. -/
structure Steady (own : Owners) (s s' : State) : Prop where
  pages : ∀ x, own x ≠ none → (s.pages x).status = .unswapable → s'.pages x = s.pages x
  procs : ∀ q, (s'.procs q).pgdir = (s.procs q).pgdir ∧ (s'.procs q).live = (s.procs q).live

/-- A state that has only grown is steady. -/
theorem Grows.steady (hg : Grows st own own' s s') : Steady own s s' :=
  ⟨fun x hx hst => hg.pages x hx (by rw [hst]; decide), hg.procs⟩

/-- A fault on an address without an entry moves no table. -/
theorem fault_unmapped_steady (hs : Sane root own s) (hr : Rooted own s)
    (hlive : (s.procs p).live = true) (hu : User root (vpn2 va))
    (hnone : pteChecker va (s.procs p).pgdir s = none) :
    Holds AnyStop (fun r => Steady own s r.2) (allocPageHelper va p .swapable s) := by
  obtain ⟨d, hd⟩ := hr p hlive
  refine (allocPageHelper_mapped hs hd hu (Or.inl rfl) (fun k hk => ?_) fun id hid hshared => ?_).mono
    fun r hM => ?_
  · obtain ⟨r, hsome⟩ := hs.shape.pteChecker_some hk
    rw [hnone] at hsome
    cases hsome
  · rw [(hs.shape.leads hid).pteChecker, hshared.1, Bool.true_or, if_pos rfl] at hnone
    cases hnone
  · obtain ⟨own', x, hM⟩ := hM
    exact hM.grows.steady

/-- A page that comes back moves no table. -/
theorem swapIn_steady (hs : Sane root own s) (hid : own id = some (p, some [vpn1 va, vpn2 va]))
    (hk : own k = some (p, some (pathOf va))) (hout : ¬ Res s k) :
    Holds AnyStop (Steady own s) (swapIn (s.pages id).kva (vpn0 va) va p s) := by
  refine (swapIn_sane hs hid hk hout).mono fun s' h => ?_
  obtain ⟨_, hprocs, k₁, id₁, i₁, π₁, s₁, hsp, hf⟩ := h
  refine ⟨fun x _ hst => ?_, fun q => by rw [hprocs]; exact ⟨rfl, rfl⟩⟩
  have hx₁ : x ≠ k₁ := by
    intro hcon
    rw [hcon, hsp.was] at hst
    cases hst
  have hxk : x ≠ k := by
    intro hcon
    rw [hcon] at hst
    unfold Res at hout
    rw [hst] at hout
    exact hout (by decide)
  rw [hf.brings.pages x hxk, hsp.evicts.pages x hx₁]

/-- A load fault moves no table. -/
theorem handleLoadPageFault_steady (hs : Sane root own s) (hr : Rooted own s)
    (hlive : (s.procs p).live = true) (hu : User root (vpn2 va)) :
    Holds AnyStop (Steady own s) (handleLoadPageFault p va s) := by
  unfold handleLoadPageFault
  cases hc : pteChecker va (s.procs p).pgdir s with
  | none => exact Holds.bind (fault_unmapped_steady hs hr hlive hu hc) fun r h => h
  | some ti =>
      obtain ⟨t, i⟩ := ti
      obtain ⟨id, k, π, hid, rfl, rfl, hk, hπ, honly, hout, hin⟩ := fault_mapped hs hr hlive hu hc
      simp only
      split_ifs with hsd
      · obtain ⟨rfl, hnot⟩ := hout hsd
        exact swapIn_steady hs hid hk hnot
      · trivial
      · exact ⟨fun _ _ _ => rfl, fun _ => ⟨rfl, rfl⟩⟩

/-- A store fault moves no table. -/
theorem handleStorePageFault_steady (hs : Sane root own s) (hr : Rooted own s)
    (hun : Unshared s) (hlive : (s.procs p).live = true) (hu : User root (vpn2 va)) :
    Holds AnyStop (Steady own s) (handleStorePageFault p va s) := by
  unfold handleStorePageFault
  cases hc : pteChecker va (s.procs p).pgdir s with
  | none => exact Holds.bind (fault_unmapped_steady hs hr hlive hu hc) fun r h => h
  | some ti =>
      obtain ⟨t, i⟩ := ti
      obtain ⟨id, k, π, hid, rfl, rfl, hk, hπ, honly, hout, hin⟩ := fault_mapped hs hr hlive hu hc
      simp only
      split_ifs with hsd
      · obtain ⟨rfl, hnot⟩ := hout hsd
        exact swapIn_steady hs hid hk hnot
      · trivial
      · exact ⟨fun _ _ _ => rfl, fun _ => ⟨rfl, rfl⟩⟩
      · exact (copyOnWrite_refused hun _ _ _ _).mono fun _ h => h.elim

/-! ## One more entry -/

/-- The entries `c` with one more. -/
def lay (t i : Nat) (e : Pte) (c : Nat → Nat → Pte) : Nat → Nat → Pte :=
  fun a j => if a = t ∧ j = i then e else c a j

/-- Setting a word is one more entry laid over. -/
theorem setWord_overlay_cons (e : Pte) :
    setWord t i e (overlay l c s) = overlay ((t, i) :: l) (lay t i e c) s := by
  unfold setWord overlay lay
  congr 1
  funext a j
  by_cases haj : a = t ∧ j = i
  · obtain ⟨rfl, rfl⟩ := haj
    simp
  · simp [haj]

/-- The attributes of a leaf: present, not on the disk, accessed and writable. -/
theorem leafAttr_bits (a : BitVec 10) (h : a &&& inSd = 0) :
    (a ||| leafAttr) &&& present ≠ 0 ∧ (a ||| leafAttr) &&& inSd = 0 ∧
      (a ||| leafAttr) &&& accessed ≠ 0 ∧ (a ||| leafAttr) &&& write ≠ 0 := by
  revert a
  decide +kernel

/-- An entry as `build_page_helper` makes it. -/
structure Leaf (e : Pte) (pa : Nat) : Prop where
  there : e.has present = true
  notSd : e.has inSd = false
  accessed : e.has accessed = true
  write : e.has write = true
  page : e.pfn * 4096 % 2 ^ 64 = pa

/-- The entry of `build_page_helper` is a leaf for the address it was given. -/
theorem leaf_of_build {e : Pte} {pa pfn : Nat} (he : e.has inSd = false) (hpfn : pfn = pa / 4096)
    (hpa : pa % 4096 = 0) (hlt : pa < 2 ^ 64) : Leaf (setAttribute leafAttr (setPfn pfn e)) pa := by
  obtain ⟨h1, h2, h3, h4⟩ := leafAttr_bits e.attr (has_eq_false.1 he)
  have hval : (setAttribute leafAttr (setPfn pfn e)).pfn = pfn % 2 ^ 54 := by
    simp only [setAttribute, setPfn]
  refine ⟨?_, ?_, ?_, ?_, ?_⟩
  · rw [has_eq_true]
    exact h1
  · rw [has_eq_false]
    exact h2
  · rw [has_eq_true]
    exact h3
  · rw [has_eq_true]
    exact h4
  · rw [hval, hpfn]
    omega

/-- What `build_page_helper` leaves: the tables it has made, and one more entry over them. -/
structure Laid (root : Nat → Pte) (own : Owners) (l : List (Nat × Nat)) (c : Nat → Nat → Pte)
    (p va pa : Nat) (s : State) (own' : Owners) (x : Nat) (s₁ : State) (e : Pte) (s' : State) :
    Prop where
  state : s' = overlay (((s₁.pages x).kva, vpn0 va) :: l) (lay (s₁.pages x).kva (vpn0 va) e c) s₁
  sane : Sane root own' s₁
  grows : Grows .unswapable own own' s s₁
  table : own' x = some (p, some [vpn1 va, vpn2 va])
  covers : Covers own' (((s₁.pages x).kva, vpn0 va) :: l) s₁
  fresh : ((s₁.pages x).kva, vpn0 va) ∉ l
  leaf : Leaf e pa

/-- `build_page_helper` makes the tables as it would on its own, and lays one entry over them. -/
theorem buildPageHelper_laid (hs : Sane root own s) (hc : Covers own l s) {d : Nat}
    (hd : own d = some (p, some [])) (hu : User root (vpn2 va)) (hoff : Off own l s p va)
    (hnone : pteChecker va (s.procs p).pgdir s = none) {pa : Nat} (hpa : pa % 4096 = 0)
    (hlt : pa < 2 ^ 64) :
    Holds AnyStop (fun s' => ∃ own' x s₁ e, Laid root own l c p va pa s own' x s₁ e s')
      (buildPageHelper va p pa (overlay l c s)) := by
  have hdir := hs.shape.dir d p hd
  unfold buildPageHelper
  rw [show ((overlay l c s).procs p).pgdir = (s.pages d).kva from hdir,
    tableAt_under hs hc hd (by simp) c]
  have htable := tableAt_table hs hd (by simp) (fun _ => hu)
  cases hx : tableAt p (s.pages d).kva (vpn2 va) s with
  | error e => trivial
  | ok r =>
      obtain ⟨own₁, m, hT₁⟩ := htable.of_ok hx
      obtain ⟨second, s₁⟩ := r
      have hc₁ : Covers own₁ l s₁ := hc.grows hs.shape hT₁.grows fun e he =>
        (tableAt_under hs hc hd (by simp)).kept hx he
      have hoff₁ := hc.off hs.shape hT₁.sane.shape hT₁.grows hoff
      have hsecond : second = (s₁.pages m).kva := hT₁.kva
      change Holds AnyStop _ (tableAt p second (vpn1 va) (overlay l c s₁) >>= _)
      rw [hsecond, tableAt_under hT₁.sane hc₁ hT₁.table (by simp) c]
      have htable₁ := tableAt_table (i := vpn1 va) hT₁.sane hT₁.table (by simp) (by simp)
      cases hx₁ : tableAt p (s₁.pages m).kva (vpn1 va) s₁ with
      | error e => trivial
      | ok r₁ =>
          obtain ⟨own₂, x, hT₂⟩ := htable₁.of_ok hx₁
          obtain ⟨third, s₂⟩ := r₁
          have hc₂ : Covers own₂ l s₂ := hc₁.grows hT₁.sane.shape hT₂.grows fun e he =>
            (tableAt_under hT₁.sane hc₁ hT₁.table (by simp)).kept hx₁ he
          have hthird : third = (s₂.pages x).kva := hT₂.kva
          have hleaf : ((s₂.pages x).kva, vpn0 va) ∉ l :=
            hc₁.off hT₁.sane.shape hT₂.sane.shape hT₂.grows hoff₁ x hT₂.table
          have habs : (s₂.mem (s₂.pages x).kva (vpn0 va)).has present = false ∧
              (s₂.mem (s₂.pages x).kva (vpn0 va)).has inSd = false := by
            rcases hT₂.new with ⟨rfl, hs₂⟩ | ⟨_, _, hempty⟩
            · rcases hT₁.new with ⟨rfl, hs₁⟩ | ⟨_, hnone, _⟩
              · simp only at hs₁ hs₂
                rw [(hs.shape.leads hT₂.table).pteChecker] at hnone
                split_ifs at hnone with hor
                rw [hs₂, hs₁]
                simpa using hor
              · exact absurd hT₂.table (hnone x _)
            · have hall := hempty (vpn0 va)
              simp only at hall
              rwa [hthird] at hall
          obtain ⟨e, he⟩ : ∃ e, e = setAttribute leafAttr (setPfn (pa / 4096)
              (s₂.mem (s₂.pages x).kva (vpn0 va))) := ⟨_, rfl⟩
          change Holds AnyStop _ (if ((overlay l c s₂).mem third (vpn0 va)).has present then _ else _)
          rw [hthird, overlay_mem hleaf, if_neg (by rw [habs.1]; decide)]
          simp only [holds_ok]
          rw [modifyWord_twice, overlay_mem hleaf, ← he, setWord_overlay_cons]
          refine ⟨own₂, x, s₂, e, rfl, hT₂.sane, hT₁.grows.trans hT₂.grows (Or.inl rfl), hT₂.table,
            ⟨fun q hq => ?_, fun q hq => ?_⟩, hleaf, ?_⟩
          · rcases List.mem_cons.1 hq with rfl | hq
            · exact ⟨x, p, _, hT₂.table, rfl, rfl⟩
            · exact hc₂.table q hq
          · rcases List.mem_cons.1 hq with rfl | hq
            · exact habs
            · exact hc₂.absent q hq
          · rw [he]
            exact leaf_of_build habs.2 rfl hpa hlt

end Mm
