import OslabRiscv.Mm.Tables
import OslabRiscv.Mm.Sectors

/-!
# Frames and descriptors

What taking a descriptor, evicting a page and linking one do to the shape of the
page tables, to the number of pages a process has in memory, and to the sectors of those
it has not.  `Sane` is the invariant between the calls; within a call a frame can be
between two descriptors, so the parts are kept apart: `Shape`, `Tally` and `Stored`.
-/

namespace Mm

open Outcome

variable {root : Nat → Pte} {own : Owners} {s s' : State} {p id k t i va kva : Nat}
  {π : List Nat} {st : PageStatus}

/-! ## The parts of the invariant -/

/-- How many pages the process has in memory. -/
def count (s : State) (p : Nat) : Nat := (s.procs p).pagehead.countP fun id => decide (Res s id)

/-- `pagenum` counts the pages in memory; only a process that has all its pages has
some put away. -/
structure Tally (s : State) (p : Nat) : Prop where
  count : count s p = (s.procs p).pagenum
  bound : (s.procs p).pagenum ≤ (s.procs p).upbound
  full : (∃ id ∈ (s.procs p).pagehead, ¬ Res s id) → (s.procs p).pagenum = (s.procs p).upbound

/-- The page `k` is in the sectors of eviction number `n`. -/
def StoredAt (s : State) (k n : Nat) : Prop :=
  n < s.writes.length ∧ ∃ t i, (s.pages k).pte = some (t, i) ∧
    (s.mem t i).pfn = (2048 + 8 * n) % 2 ^ 32

/-- Every page that is out is in the sectors of an eviction of its own. -/
def Stored (own : Owners) (s : State) : Prop :=
  ∃ slot : Nat → Nat, (∀ k, own k ≠ none → ¬ Res s k → StoredAt s k (slot k)) ∧
    ∀ k k', own k ≠ none → own k' ≠ none → ¬ Res s k → ¬ Res s k' → slot k = slot k' → k = k'

/-- Only pages of the process can be evicted. -/
def Settled (own : Owners) (s : State) : Prop :=
  ∀ id p, own id = some (p, none) → (s.pages id).status ≠ .swapable

/-- The list counts one less when one of its members drops out. -/
theorem countP_flip {α : Type} {P Q : α → Bool} {x : α} {l : List α} (hl : l.Nodup) (hx : x ∈ l)
    (hP : P x = true) (hQ : Q x = false) (h : ∀ y ∈ l, y ≠ x → P y = Q y) :
    l.countP P = l.countP Q + 1 := by
  induction l with
  | nil => cases hx
  | cons y l ih =>
      rw [List.nodup_cons] at hl
      by_cases hy : y = x
      · have hrest : l.countP P = l.countP Q := by
          refine List.countP_congr fun z hz => ?_
          have hzx : z ≠ x := by
            intro hcon
            rw [hcon, ← hy] at hz
            exact hl.1 hz
          rw [h z (List.mem_cons_of_mem y hz) hzx]
        rw [hy, List.countP_cons_of_pos hP, List.countP_cons_of_neg (by rw [hQ]; simp), hrest]
      · have hxl : x ∈ l := by
          rcases List.mem_cons.mp hx with hx | hx
          · exact absurd hx.symm hy
          · exact hx
        have hrest := ih hl.2 hxl fun z hz => h z (List.mem_cons_of_mem y hz)
        rw [List.countP_cons, List.countP_cons, hrest, h y List.mem_cons_self hy]
        omega

/-- The count reads which of the pages of the process are in memory. -/
theorem count_congr (hp : (s'.procs p).pagehead = (s.procs p).pagehead)
    (h : ∀ id ∈ (s.procs p).pagehead, (Res s' id ↔ Res s id)) : count s' p = count s p := by
  unfold count
  rw [hp]
  refine List.countP_congr fun id hid => ?_
  simp only [h id hid]

/-- A process whose list and pages in memory stay the same. -/
theorem Tally.congr (h : Tally s p) (hhead : (s'.procs p).pagehead = (s.procs p).pagehead)
    (hnum : (s'.procs p).pagenum = (s.procs p).pagenum)
    (hup : (s'.procs p).upbound = (s.procs p).upbound)
    (hres : ∀ id ∈ (s.procs p).pagehead, (Res s' id ↔ Res s id)) : Tally s' p := by
  refine ⟨?_, ?_, fun hex => ?_⟩
  · rw [count_congr hhead hres, hnum]
    exact h.count
  · rw [hnum, hup]
    exact h.bound
  · obtain ⟨id, hid, hout⟩ := hex
    rw [hhead] at hid
    rw [hnum, hup]
    exact h.full ⟨id, hid, fun hcon => hout ((hres id hid).mpr hcon)⟩

/-! ## Linking -/

/-- A page that has its place already is linked there for nothing. -/
theorem Shape.link_eq {own : Owners} {k p : Nat} {π : List Nat}
    (h : own k = some (p, some π)) : Shape.link own k p π = own := by
  funext x
  by_cases hx : x = k
  · rw [hx, Shape.link_self, h]
  · rw [Shape.link_other _ _ _ hx]

/-- What one process owns is not on the list of another. -/
theorem Shape.not_listed (h : Shape root own s) {q : Nat} {r : Option (List Nat)}
    (hk : own k = some (p, r)) (hq : q ≠ p) : ∀ x ∈ (s.procs q).pagehead, x ≠ k := by
  intro x hx hcon
  obtain ⟨r', hr'⟩ := (h.listed q x).mp hx
  rw [hcon, hk] at hr'
  cases hr'
  exact hq rfl

/-- A page that is out has its entry in the table over it. -/
theorem Shape.out_entry (h : Shape root own s) (ho : own k ≠ none) (hr : ¬ Res s k) :
    ∃ p i π id, own k = some (p, some (i :: π)) ∧ π.length = 2 ∧ own id = some (p, some π) ∧
      (s.pages k).pte = some ((s.pages id).kva, i) ∧ (s.pages k).kva = 0 ∧
      (s.mem (s.pages id).kva i).has present = false ∧
      (s.mem (s.pages id).kva i).has inSd = true := by
  obtain ⟨⟨p, r⟩, hown⟩ := Option.ne_none_iff_exists'.mp ho
  cases r with
  | none => exact absurd (h.loose k p hown).1 hr
  | some π =>
      have hst := h.status k p π hown
      have hlen : ¬ π.length < 3 := by
        intro hlt
        exact hr (h.table_res hown (by omega))
      cases π with
      | nil => simp at hlen
      | cons i π =>
          obtain ⟨hle, _, id, hid⟩ := h.parent k p i π hown
          have hπ : π.length = 2 := by
            simp at hlen
            omega
          rcases h.filled hown hid with ⟨hres, _⟩ | ⟨_, hp, hsd⟩
          · exact absurd hres hr
          · exact ⟨p, i, π, id, hown, hπ, hid,
              (h.leaf k p _ hown (by simp [hπ])).2 id hid, hst.2 hr, hp, hsd⟩

/-- Linking a page in memory leaves those that are out where they are. -/
theorem Stored.update {id₀ k₀ p₀ i₀ : Nat} {π₀ : List Nat} (h : Shape root own s)
    (hl : Shape.Links root own s s' id₀ k₀ p₀ i₀ π₀) (hres : Res s' k₀)
    (hw : s'.writes = s.writes) (hst : Stored own s) :
    Stored (Shape.link own k₀ p₀ (i₀ :: π₀)) s' := by
  obtain ⟨slot, hat, hinj⟩ := hst
  have hback : ∀ k, Shape.link own k₀ p₀ (i₀ :: π₀) k ≠ none → ¬ Res s' k →
      k ≠ k₀ ∧ own k ≠ none ∧ ¬ Res s k := by
    intro k ho hr
    have hne : k ≠ k₀ := by
      intro hcon
      rw [hcon] at hr
      exact hr hres
    rw [Shape.link_other _ _ _ hne] at ho
    refine ⟨hne, ho, ?_⟩
    unfold Res at hr ⊢
    rwa [hl.pages k hne] at hr
  refine ⟨slot, fun k ho hr => ?_, fun k k' ho ho' hr hr' => ?_⟩
  · obtain ⟨hne, ho, hr⟩ := hback k ho hr
    obtain ⟨p, i, π, id, hown, hπ, hid, hpte, _, _, _⟩ := h.out_entry ho hr
    obtain ⟨hlt, t, j, hpte', hpfn⟩ := hat k ho hr
    rw [hpte] at hpte'
    cases hpte'
    refine ⟨by rw [hw]; exact hlt, (s.pages id).kva, i, by rw [hl.pages k hne]; exact hpte, ?_⟩
    rw [hl.mem id p π i hid (by omega) ?_]
    · exact hpfn
    · by_contra hcon
      rw [not_or, not_not, not_not] at hcon
      obtain ⟨rfl, rfl⟩ := hcon
      have htab := hl.table
      rw [hid] at htab
      cases htab
      rcases hl.page with ⟨hpk, _⟩ | ⟨_, hnone⟩
      · exact hne (h.path_inj _ _ _ _ hown hpk)
      · exact hnone k hown
  · obtain ⟨_, ho, hr⟩ := hback k ho hr
    obtain ⟨_, ho', hr'⟩ := hback k' ho' hr'
    exact hinj k k' ho ho' hr hr'

/-! ## What a page holds -/

/-- The page, with its entry at `e`, holds `c` with attributes `a`: in its frame and its
entry, or in the sectors its entry names. -/
def Kept (s : State) (k : Nat) (e : Nat × Nat) (c : Nat → Pte) (a : BitVec 10) : Prop :=
  (s.pages k).pte = some e ∧
    (Res s k → (∀ j, j < 512 → s.mem (s.pages k).kva j = c j) ∧ (s.mem e.1 e.2).attr = a) ∧
    (¬ Res s k → (∀ j, j < 512 →
        s.sd (getPfn (s.mem e.1 e.2) % 2 ^ 32 + j / 64) (j % 64) = c j) ∧
      ((s.mem e.1 e.2).attr ^^^ inSd) ||| present = a)

/-- As long as the counter has not come round, the pages of the processes hold what they
held, but for those of processes that are gone. -/
structure Carries (gone : Nat → Prop) (own : Owners) (s s' : State) : Prop where
  more : s.writes.length ≤ s'.writes.length
  kept : s'.writes.length ≤ 2 ^ 29 → ∀ k p π e c a, own k = some (p, some π) → π.length = 3 →
    ¬ gone p → Kept s k e c a → Kept s' k e c a

theorem Carries.trans {gone : Nat → Prop} {own' : Owners} {s'' : State}
    (h : Carries gone own s s') (h' : Carries gone own' s' s'')
    (hown : ∀ k p π, own k = some (p, some π) → ¬ gone p → own' k = some (p, some π)) :
    Carries gone own s s'' := by
  refine ⟨h.more.trans h'.more, fun hlen k p π e c a hk hπ hgone hkept => ?_⟩
  exact h'.kept hlen k p π e c a (hown k p π hk hgone) hπ hgone
    (h.kept (h'.more.trans hlen) k p π e c a hk hπ hgone hkept)

theorem Carries.mono {gone gone' : Nat → Prop} (h : Carries gone own s s')
    (hg : ∀ p, gone p → gone' p) : Carries gone' own s s' :=
  ⟨h.more, fun hlen k p π e c a hk hπ hgone => h.kept hlen k p π e c a hk hπ fun hp => hgone (hg p hp)⟩

/-- No process is gone. -/
def nobody (_ : Nat) : Prop := False

/-- A page whose entry and frame, or entry and sectors, are left alone. -/
theorem Kept.same {e : Nat × Nat} {c : Nat → Pte} {a : BitVec 10} (h : Kept s k e c a)
    (hpages : s'.pages k = s.pages k)
    (hentry : ∀ t i, (s.pages k).pte = some (t, i) → s'.mem t i = s.mem t i)
    (hframe : Res s k → ∀ j, s'.mem (s.pages k).kva j = s.mem (s.pages k).kva j)
    (hsd : ¬ Res s k → ∀ t i, (s.pages k).pte = some (t, i) → ∀ j, j < 512 →
      s'.sd (getPfn (s.mem t i) % 2 ^ 32 + j / 64) (j % 64) =
        s.sd (getPfn (s.mem t i) % 2 ^ 32 + j / 64) (j % 64)) : Kept s' k e c a := by
  obtain ⟨t, i⟩ := e
  obtain ⟨hpte, hin, hout⟩ := h
  have hR : Res s' k ↔ Res s k := by
    unfold Res
    rw [hpages]
  refine ⟨by rw [hpages]; exact hpte, fun hr => ?_, fun hr => ?_⟩
  · have hr' := hR.mp hr
    obtain ⟨hc, ha⟩ := hin hr'
    rw [hpages, hentry t i hpte]
    exact ⟨fun j hj => by rw [hframe hr' j]; exact hc j hj, ha⟩
  · have hr' : ¬ Res s k := fun hcon => hr (hR.mpr hcon)
    obtain ⟨hc, ha⟩ := hout hr'
    rw [hentry t i hpte]
    exact ⟨fun j hj => by rw [hsd hr' t i hpte j hj]; exact hc j hj, ha⟩

/-- The entry of a page, and the table it is in. -/
theorem Shape.entryOf (h : Shape root own s) (hk : own k = some (p, some π)) (hπ : π.length = 3) :
    ∃ i π' id, π = i :: π' ∧ π'.length = 2 ∧ own id = some (p, some π') ∧
      (s.pages k).pte = some ((s.pages id).kva, i) := by
  cases π with
  | nil => cases hπ
  | cons i π' =>
      obtain ⟨_, _, id, hid⟩ := h.parent k p i π' hk
      exact ⟨i, π', id, rfl, by simpa using hπ, hid, (h.leaf k p _ hk hπ).2 id hid⟩

/-- Under a link of one page, with the sectors left alone, the others hold what they held. -/
theorem Shape.Links.carried {id₀ k₀ p₀ i₀ : Nat} {π₀ : List Nat} (h : Shape root own s)
    (hl : Shape.Links root own s s' id₀ k₀ p₀ i₀ π₀) {e : Nat × Nat} {c : Nat → Pte} {a : BitVec 10}
    (hk : own k = some (p, some π)) (hπ : π.length = 3) (hne : k ≠ k₀)
    (hframe : Res s k → ∀ j, s'.mem (s.pages k).kva j = s.mem (s.pages k).kva j)
    (hsd : ¬ Res s k → ∀ t i, (s.pages k).pte = some (t, i) → ∀ j, j < 512 →
      s'.sd (getPfn (s.mem t i) % 2 ^ 32 + j / 64) (j % 64) =
        s.sd (getPfn (s.mem t i) % 2 ^ 32 + j / 64) (j % 64))
    (hkept : Kept s k e c a) : Kept s' k e c a := by
  refine hkept.same (hl.pages k hne) (fun t i hpte => ?_) hframe hsd
  obtain ⟨i', π', id, rfl, hπ', hid, hpte'⟩ := h.entryOf hk hπ
  rw [hpte'] at hpte
  cases hpte
  refine hl.mem id p π' _ hid (by omega) ?_
  by_contra hcon
  rw [not_or, not_not, not_not] at hcon
  obtain ⟨rfl, rfl⟩ := hcon
  have htab := hl.table
  rw [hid] at htab
  cases htab
  rcases hl.page with ⟨hpk, _⟩ | ⟨_, hnone⟩
  · exact hne (h.path_inj _ _ _ _ hk hpk)
  · exact hnone k hk

/-- The frames of two descriptors in memory are two. -/
theorem Shape.frames_ne (h : Shape root own s) {y : Nat} (hx : own x ≠ none) (hy : own y ≠ none)
    (hrx : Res s x) (hry : Res s y) (hne : x ≠ y) : (s.pages x).kva ≠ (s.pages y).kva :=
  fun hcon => hne (h.frame_inj x y hx hy hrx hry hcon)

/-- Sectors of two evictions are apart. -/
theorem sectors_apart {n m a b : Nat} (hn : n < 2 ^ 29) (hm : m < 2 ^ 29) (hne : n ≠ m)
    (ha : a < 8) (hb : (2048 + 8 * m) % 2 ^ 32 ≤ b) (hb' : b < (2048 + 8 * m) % 2 ^ 32 + 8) :
    (2048 + 8 * n) % 2 ^ 32 + a ≠ b := by
  omega

/-! ## Evicting -/

/-- The page `k` of `p`, behind entry `i` of the table `id`, is put away. -/
structure Spill (own : Owners) (p k id i : Nat) (π : List Nat) (s s' : State) : Prop where
  table : own id = some (p, some π)
  len : π.length = 2
  page : own k = some (p, some (i :: π))
  was : (s.pages k).status = .swapable
  present : (s.mem (s.pages id).kva i).has present = true
  notSd : (s.mem (s.pages id).kva i).has inSd = false
  frame : pageOf (s.mem (s.pages id).kva i) = (s.pages k).kva
  evicts : Evicts k (s.pages id).kva i s s'

/-- The page that `get_swap_page` finds can be evicted. -/
theorem getSwapPage_ok {l : List Nat} (h : getSwapPage l s = .ok id) :
    id ∈ l ∧ (s.pages id).status = .swapable := by
  unfold getSwapPage at h
  cases hf : l.find? fun id => (s.pages id).status = .swapable with
  | none =>
      rw [hf] at h
      cases h
  | some x =>
      rw [hf] at h
      cases h
      have hx := List.find?_some hf
      exact ⟨List.mem_of_find?_eq_some hf, of_decide_eq_true hx⟩

/-- A page that can be evicted, its entry and the table it is in. -/
theorem Shape.swapable_entry (h : Shape root own s) (hset : Settled own s)
    (hmem : k ∈ (s.procs p).pagehead) (hst : (s.pages k).status = .swapable) :
    ∃ id, own id = some (p, some [vpn1 (s.pages k).uva, vpn2 (s.pages k).uva]) ∧
      own k = some (p, some (pathOf (s.pages k).uva)) ∧ Res s k ∧
      getPte (s.pages k).uva (s.procs p).pgdir s =
        .ok ((s.pages id).kva, vpn0 (s.pages k).uva) ∧
      (s.mem (s.pages id).kva (vpn0 (s.pages k).uva)).has present = true ∧
      (s.mem (s.pages id).kva (vpn0 (s.pages k).uva)).has inSd = false ∧
      pageOf (s.mem (s.pages id).kva (vpn0 (s.pages k).uva)) = (s.pages k).kva := by
  obtain ⟨r, hown⟩ := (h.listed p k).mp hmem
  have hres : Res s k := by
    unfold Res
    rw [hst]
    exact fun hcon => by cases hcon
  cases r with
  | none => exact absurd hst (hset k p hown)
  | some π =>
      have hlen : ¬ π.length < 3 := by
        intro hlt
        rw [((h.status k p π hown).1 hlt).1] at hst
        cases hst
      cases π with
      | nil => simp at hlen
      | cons i π =>
          obtain ⟨hle, _, id, hid⟩ := h.parent k p i π hown
          have hπ : π.length = 2 := by
            simp at hlen
            omega
          have hpath := (h.leaf k p _ hown (by simp [hπ])).1
          obtain ⟨hi, htail⟩ := List.cons.inj hpath
          rw [hpath] at hown
          rw [htail] at hid
          rcases h.filled hown hid with ⟨_, hp, hframe, hsd⟩ | ⟨hout, _⟩
          · exact ⟨id, hid, hown, hres, (h.leads hid).getPte hp, hp, hsd rfl, hframe⟩
          · exact absurd hres hout

/-- `swap_to_sd` puts away the page it is asked to. -/
theorem swapToSd_spill (h : Shape root own s) (hset : Settled own s)
    (hmem : k ∈ (s.procs p).pagehead) (hst : (s.pages k).status = .swapable) :
    ∃ id s', swapToSd k p s = .ok ((s.pages k).kva, s') ∧
      Spill own p k id (vpn0 (s.pages k).uva) [vpn1 (s.pages k).uva, vpn2 (s.pages k).uva] s s' := by
  obtain ⟨id, hid, hown, hres, hpte, hp, hsd, hframe⟩ := h.swapable_entry hset hmem hst
  have hne : pageOf (s.mem (s.pages id).kva (vpn0 (s.pages k).uva)) ≠ (s.pages id).kva := by
    rw [hframe]
    intro hcon
    have heq := h.frame_inj k id (by rw [hown]; simp) (by rw [hid]; simp) hres
      (h.table_res hid (by simp)) hcon
    rw [heq, hid] at hown
    have hlen := congrArg List.length (Option.some.inj (Prod.mk.inj (Option.some.inj hown)).2)
    cases hlen
  obtain ⟨s', hs', hev⟩ := swapToSd_evicts hpte hne
  exact ⟨id, s', hs', hid, rfl, hown, hst, hp, hsd, hframe, hev⟩

/-- `do_swap` puts away one of the process's pages. -/
theorem doSwap_spill (h : Shape root own s) (hset : Settled own s) :
    Holds AnyStop (fun r => ∃ k id i π, r.1 = (s.pages k).kva ∧ Spill own p k id i π s r.2)
      (doSwap p s) := by
  unfold doSwap
  cases hget : getSwapPage (s.procs p).pagehead s with
  | error e => trivial
  | ok k =>
      obtain ⟨hmem, hst⟩ := getSwapPage_ok hget
      obtain ⟨id, s', hs', hsp⟩ := swapToSd_spill h hset hmem hst
      change Holds AnyStop _ (swapToSd k p s)
      rw [hs']
      exact ⟨k, id, _, _, rfl, hsp⟩

section Spill

variable {i : Nat}

/-- The victim was in memory. -/
theorem Spill.res (hsp : Spill own p k id i π s s') : Res s k := by
  unfold Res
  rw [hsp.was]
  exact fun hcon => by cases hcon

/-- The victim is out. -/
theorem Spill.out (hsp : Spill own p k id i π s s') : ¬ Res s' k := by
  unfold Res
  rw [hsp.evicts.page]
  exact fun hcon => hcon rfl

theorem Spill.res_other (hsp : Spill own p k id i π s s') {x : Nat} (hx : x ≠ k) :
    Res s' x ↔ Res s x := by
  unfold Res
  rw [hsp.evicts.pages x hx]

/-- An eviction makes no page copy on write. -/
theorem Spill.alone (hsp : Spill own p k id i π s s') (x : Nat)
    (hx : (s'.pages x).status = .copyOnWrite) : (s.pages x).status = .copyOnWrite := by
  by_cases hne : x = k
  · rw [hne, hsp.evicts.page] at hx
    cases hx
  · rwa [hsp.evicts.pages x hne] at hx

/-- The links of the tables under an eviction. -/
theorem Spill.links (h : Shape root own s) (hsp : Spill own p k id i π s s') :
    Shape.Links root own s s' id k p i π := by
  have hkva : ∀ x p' π', own x = some (p', some π') → π'.length ≤ 2 →
      (s.pages x).kva ≠ (s.pages k).kva := by
    intro x p' π' hx hπ' hcon
    have heq := h.frame_inj x k (by rw [hx]; simp) (by rw [hsp.page]; simp)
      (h.table_res hx hπ') hsp.res hcon
    rw [heq, hsp.page] at hx
    have hl := congrArg List.length (Option.some.inj (Prod.mk.inj (Option.some.inj hx)).2)
    have := hsp.len
    simp at hl
    omega
  have hroot := h.kva_ne_root (by rw [hsp.page]; simp) hsp.res
  have hroot' := h.kva_ne_root (by rw [hsp.table]; simp) (h.table_res hsp.table (by rw [hsp.len]))
  have hbits := evict_bits _ (has_eq_true.mp hsp.present) (has_eq_false.mp hsp.notSd)
  constructor
  case table => exact hsp.table
  case len => rw [hsp.len]
  case user =>
    intro hnil
    have hlen := hsp.len
    rw [hnil] at hlen
    cases hlen
  case page => exact Or.inl ⟨hsp.page, hsp.len⟩
  case pages => exact fun x hx => hsp.evicts.pages x hx
  case mem =>
    intro x p' π' j hx hπ' hne
    refine hsp.evicts.mem _ j ?_ (by rw [hsp.frame]; exact hkva x p' π' hx hπ')
    rcases hne with hne | hne
    · refine Or.inl fun hcon => hne ?_
      exact h.frame_inj x id (by rw [hx]; simp) (by rw [hsp.table]; simp) (h.table_res hx hπ')
        (h.table_res hsp.table (by rw [hsp.len])) hcon
    · exact Or.inr hne
  case entry =>
    refine Or.inr ⟨hsp.out, ?_, ?_⟩
    · rw [hsp.evicts.entry]
      exact has_eq_false.mpr hbits.1
    · rw [hsp.evicts.entry]
      exact has_eq_true.mpr hbits.2.1
  case status =>
    refine ⟨fun hlen => ?_, fun _ => ?_⟩
    · have := hsp.len
      omega
    · rw [hsp.evicts.page]
  case alone =>
    rw [hsp.was]
    exact fun hcon => by cases hcon
  case frame => exact fun hres => absurd hres hsp.out
  case empty =>
    intro hlen
    have := hsp.len
    omega
  case leaf =>
    intro _
    rw [hsp.evicts.page]
    exact ⟨(h.leaf k p _ hsp.page (by simp [hsp.len])).1, rfl⟩
  case kernel =>
    intro j
    exact hsp.evicts.mem _ j (Or.inl hroot'.symm) (by rw [hsp.frame]; exact hroot.symm)
  case pageId => exact hsp.evicts.pageId
  case kernMemCurr => exact hsp.evicts.kernMemCurr
  case procs => exact hsp.evicts.procs

/-- An eviction keeps the tables in shape. -/
theorem Spill.shape (h : Shape root own s) (hsp : Spill own p k id i π s s') :
    Shape root own s' := by
  have hu := h.update (hsp.links h)
  rwa [Shape.link_eq hsp.page] at hu

/-- The other pages that can be evicted stay behind their processes. -/
theorem Spill.settled (hset : Settled own s) (hsp : Spill own p k id i π s s') :
    Settled own s' := by
  intro x q hx
  have hne : x ≠ k := by
    intro hcon
    rw [hcon, hsp.page] at hx
    cases hx
  rw [hsp.evicts.pages x hne]
  exact hset x q hx

/-- The frame that has become free is nobody's. -/
theorem Spill.free (h : Shape root own s) (hsp : Spill own p k id i π s s') :
    Given s' (s.pages k).kva ∧
      ∀ x, own x ≠ none → Res s' x → (s'.pages x).kva ≠ (s.pages k).kva := by
  refine ⟨?_, fun x hx hr hcon => ?_⟩
  · unfold Given
    rw [hsp.evicts.kernMemCurr]
    exact h.frame k (by rw [hsp.page]; simp) hsp.res
  · have hne : x ≠ k := by
      intro heq
      rw [heq] at hr
      exact hsp.out hr
    rw [hsp.evicts.pages x hne] at hcon
    exact hne (h.frame_inj x k hx (by rw [hsp.page]; simp) ((hsp.res_other hne).mp hr) hsp.res hcon)

/-- One page less in memory. -/
theorem Spill.count (h : Shape root own s) (hsp : Spill own p k id i π s s') :
    count s p = count s' p + 1 := by
  unfold Mm.count
  rw [hsp.evicts.procs]
  refine countP_flip (h.nodup p) ((h.listed p k).mpr ⟨_, hsp.page⟩)
    (decide_eq_true hsp.res) (decide_eq_false hsp.out) fun y _ hy => ?_
  simp only [hsp.res_other hy]

theorem Spill.tally_other (h : Shape root own s) (hsp : Spill own p k id i π s s') {q : Nat}
    (hq : q ≠ p) (ht : Tally s q) : Tally s' q := by
  have hprocs := hsp.evicts.procs
  refine ht.congr (by rw [hprocs]) (by rw [hprocs]) (by rw [hprocs]) fun x hx => ?_
  exact hsp.res_other (h.not_listed hsp.page hq x hx)

/-- The page just put away is in the sectors of the last eviction. -/
theorem Spill.stored (h : Shape root own s) (hdr : Drawn s) (hst : Stored own s)
    (hsp : Spill own p k id i π s s') : Stored own s' := by
  obtain ⟨slot, hat, hinj⟩ := hst
  have hw : s'.writes.length = s.writes.length + 1 := by
    rw [hsp.evicts.writes, List.length_append, List.length_singleton]
  have hback : ∀ x, x ≠ k → ¬ Res s' x → ¬ Res s x :=
    fun x hx hr hcon => hr ((hsp.res_other hx).mpr hcon)
  refine ⟨fun x => if x = k then s.writes.length else slot x, fun x ho hr => ?_, ?_⟩
  · beta_reduce
    by_cases hx : x = k
    · rw [if_pos hx, hx]
      refine ⟨by omega, (s.pages id).kva, i, by rw [hsp.evicts.page], ?_⟩
      rw [hsp.evicts.entry, ← hdr.sector]
      have := hdr.sector
      simp only [outEntry]
      omega
    · rw [if_neg hx]
      obtain ⟨q, j, π', tab, hown, hπ', htab, hpte, _, _, _⟩ := h.out_entry ho (hback x hx hr)
      obtain ⟨hlt, t, j', hpte', hpfn⟩ := hat x ho (hback x hx hr)
      rw [hpte] at hpte'
      cases hpte'
      refine ⟨by omega, (s.pages tab).kva, j, by rw [hsp.evicts.pages x hx]; exact hpte, ?_⟩
      rw [(hsp.links h).mem tab q π' j htab (by omega) ?_]
      · exact hpfn
      · by_contra hcon
        rw [not_or, not_not, not_not] at hcon
        obtain ⟨rfl, rfl⟩ := hcon
        have ht := hsp.table
        rw [htab] at ht
        cases ht
        exact hx (h.path_inj _ _ _ _ hown hsp.page)
  · intro x x' ho ho' hr hr' heq
    beta_reduce at heq
    by_cases hx : x = k
    · by_cases hx' : x' = k
      · rw [hx, hx']
      · rw [if_pos hx, if_neg hx'] at heq
        have := (hat x' ho' (hback x' hx' hr')).1
        omega
    · by_cases hx' : x' = k
      · rw [if_neg hx, if_pos hx'] at heq
        have := (hat x ho (hback x hx hr)).1
        omega
      · rw [if_neg hx, if_neg hx'] at heq
        exact hinj x x' ho ho' (hback x hx hr) (hback x' hx' hr') heq

/-- An eviction carries the content of the victim into its sectors, and leaves the rest. -/
theorem Spill.carries (h : Shape root own s) (hdr : Drawn s) (hst : Stored own s)
    (hsp : Spill own p k id i π s s') : Carries nobody own s s' := by
  refine ⟨by rw [hsp.evicts.writes, List.length_append]; omega, ?_⟩
  intro hlen x q π' e c a hx hπ' _ hkept
  have hw : s'.writes.length = s.writes.length + 1 := by
    rw [hsp.evicts.writes, List.length_append, List.length_singleton]
  by_cases hxk : x = k
  · -- the page itself goes from its frame to the sectors
    rw [hxk] at hkept ⊢
    obtain ⟨hpte, hin, _⟩ := hkept
    have hpte' : (s.pages k).pte = some ((s.pages id).kva, i) :=
      (h.leaf k p _ hsp.page (by simp [hsp.len])).2 id hsp.table
    rw [hpte'] at hpte
    cases hpte
    obtain ⟨hc, ha⟩ := hin hsp.res
    have hbits := evict_bits _ (has_eq_true.mp hsp.present) (has_eq_false.mp hsp.notSd)
    have hsec : getPfn (s'.mem (s.pages id).kva i) % 2 ^ 32 = s.sector := by
      rw [hsp.evicts.entry]
      have := hdr.sector
      simp only [getPfn, outEntry]
      omega
    refine ⟨by rw [hsp.evicts.page], fun hr => absurd hr hsp.out,
      fun _ => ⟨fun j hj => ?_, ?_⟩⟩
    · rw [hsec, hsp.evicts.sd, if_pos ⟨by omega, by omega⟩, hsp.frame]
      rw [show (s.sector + j / 64 - s.sector) * 64 + j % 64 = j by omega]
      exact hc j hj
    · rw [hsp.evicts.entry]
      exact hbits.2.2.trans ha
  · refine (hsp.links h).carried h hx hπ' hxk (fun hr j => ?_) (fun hout t j hpte m hm => ?_) hkept
    · refine hsp.evicts.mem _ j (Or.inl ?_) ?_
      · refine h.frames_ne (by rw [hx]; simp) (by rw [hsp.table]; simp) hr
          (h.table_res hsp.table (by rw [hsp.len])) fun hcon => ?_
        rw [hcon, hsp.table] at hx
        cases hx
        have := hsp.len
        omega
      · rw [hsp.frame]
        exact h.frames_ne (by rw [hx]; simp) (by rw [hsp.page]; simp) hr hsp.res hxk
    · obtain ⟨slot, hat, _⟩ := hst
      obtain ⟨hlt, t', j', hpte', hpfn⟩ := hat x (by rw [hx]; simp) hout
      rw [hpte] at hpte'
      cases hpte'
      have hsec : getPfn (s.mem t j) % 2 ^ 32 = (2048 + 8 * slot x) % 2 ^ 32 := by
        unfold getPfn
        rw [hpfn]
        omega
      rw [hsec, hsp.evicts.sd, if_neg]
      intro hcon
      rw [hdr.sector] at hcon
      exact sectors_apart (by omega) (by omega) (show slot x ≠ s.writes.length by omega)
        (show m / 64 < 8 by omega) hcon.1 hcon.2 rfl

end Spill

/-! ## Taking a descriptor -/

/-- The descriptor `x` belongs to `p`, and is not linked. -/
def hold (own : Owners) (x p : Nat) : Owners := fun k => if k = x then some (p, none) else own k

theorem hold_self (own : Owners) (x p : Nat) : hold own x p x = some (p, none) := if_pos rfl

theorem hold_other (own : Owners) {x k : Nat} (p : Nat) (h : k ≠ x) : hold own x p k = own k :=
  if_neg h

/-- The next descriptor goes to `p`, with the frame `kva`. -/
structure Takes (p kva : Nat) (st : PageStatus) (s s' : State) : Prop where
  pageId : s'.pageId = s.pageId + 1
  limit : s.pageId < pageNum
  page : s'.pages s.pageId = { s.pages s.pageId with status := st, kva := kva }
  pages : ∀ k, k ≠ s.pageId → s'.pages k = s.pages k
  mem : s'.mem = s.mem
  sd : s'.sd = s.sd
  sector : s'.sector = s.sector
  writes : s'.writes = s.writes
  pagehead : (s'.procs p).pagehead = (s.procs p).pagehead ++ [s.pageId]
  pgdir : (s'.procs p).pgdir = (s.procs p).pgdir
  others : ∀ q, q ≠ p → s'.procs q = s.procs q
  room : s.kernMemCurr ≤ s'.kernMemCurr ∧ s'.kernMemCurr % 4096 = 0 ∧
    s'.kernMemCurr ≤ freememKernel + 4096 * s'.pageId

/-- The descriptors are given out one after the other. -/
theorem findUnused_eq (h : Shape root own s) :
    findUnused (pageNum + 1) s =
      if pageNum ≤ s.pageId then .error .undefined
      else .ok (s.pageId, { s with pageId := s.pageId + 1 }) := by
  unfold findUnused
  rw [if_pos (h.fresh s.pageId le_rfl).1]

section Takes

/-- A page that has an owner is another one. -/
theorem Takes.hold_some (h : Shape root own s) (x : Nat) {r : Nat × Option (List Nat)}
    (hx : own x = some r) : x ≠ s.pageId := by
  intro hcon
  rw [hcon, (h.fresh s.pageId le_rfl).2.1] at hx
  cases hx

/-- A page with a place is another one. -/
theorem Takes.hold_path {x q : Nat} {π : List Nat}
    (hx : hold own s.pageId p x = some (q, some π)) : x ≠ s.pageId ∧ own x = some (q, some π) := by
  by_cases hne : x = s.pageId
  · rw [hne, hold_self] at hx
    cases hx
  · rw [hold_other _ _ hne] at hx
    exact ⟨hne, hx⟩

/-- The page that was taken is in memory. -/
theorem Takes.res (hst : st ≠ .notInMem) (ht : Takes p kva st s s') : Res s' s.pageId := by
  unfold Res
  rw [ht.page]
  exact hst

theorem Takes.res_other (ht : Takes p kva st s s') {x : Nat} (hx : x ≠ s.pageId) :
    Res s' x ↔ Res s x := by
  unfold Res
  rw [ht.pages x hx]

/-- A page without a place keeps the tables in shape. -/
theorem Takes.shape (h : Shape root own s) (ht : Takes p kva st s s')
    (hst : st = .swapable ∨ st = .unswapable) (hkva : Given s' kva)
    (hfree : ∀ x, own x ≠ none → Res s x → (s.pages x).kva ≠ kva) :
    Shape root (hold own s.pageId p) s' := by
  have hst' : st ≠ .notInMem ∧ st ≠ .copyOnWrite := by
    rcases hst with rfl | rfl
    · decide
    · decide
  have hnew := (h.fresh s.pageId le_rfl).2.1
  have hkept : ∀ {x q : Nat} {π : List Nat}, own x = some (q, some π) →
      hold own s.pageId p x = some (q, some π) := by
    intro x q π hx
    rw [hold_other _ _ (Takes.hold_some h x hx), hx]
  have hsome : ∀ x, x ≠ s.pageId → hold own s.pageId p x ≠ none → own x ≠ none := by
    intro x hx ho
    rwa [hold_other _ _ hx] at ho
  constructor
  case kernel =>
    intro i
    rw [ht.mem]
    exact h.kernel i
  case fresh =>
    intro x hx
    rw [ht.pageId] at hx
    have hne : x ≠ s.pageId := by omega
    rw [ht.pages x hne, hold_other _ _ hne]
    exact h.fresh x (by omega)
  case nodup =>
    intro q
    by_cases hq : q = p
    · rw [hq, ht.pagehead]
      refine List.Nodup.append (h.nodup p) (List.nodup_singleton _) ?_
      intro x hx hx'
      rw [List.mem_singleton] at hx'
      obtain ⟨r, hr⟩ := (h.listed p x).mp hx
      rw [hx', hnew] at hr
      cases hr
    · rw [ht.others q hq]
      exact h.nodup q
  case listed =>
    intro q x
    by_cases hx : x = s.pageId
    · rw [hx, hold_self]
      by_cases hq : q = p
      · rw [hq, ht.pagehead]
        constructor
        · intro _
          exact ⟨_, rfl⟩
        · intro _
          exact List.mem_append_right _ (List.mem_singleton_self _)
      · rw [ht.others q hq, h.listed q]
        constructor
        · intro hex
          obtain ⟨r, hr⟩ := hex
          rw [hnew] at hr
          cases hr
        · intro hex
          obtain ⟨r, hr⟩ := hex
          cases hr
          exact absurd rfl hq
    · rw [hold_other _ _ hx, ← h.listed q x]
      by_cases hq : q = p
      · rw [hq, ht.pagehead, List.mem_append, List.mem_singleton]
        constructor
        · intro hor
          rcases hor with hmem | hcon
          · exact hmem
          · exact absurd hcon hx
        · intro hmem
          exact Or.inl hmem
      · rw [ht.others q hq]
  case path_inj =>
    intro x x' q π hx hx'
    exact h.path_inj x x' q π (Takes.hold_path hx).2 (Takes.hold_path hx').2
  case room =>
    refine ⟨h.room.1.trans ht.room.1, ht.room.2.1, ht.room.2.2, ?_⟩
    rw [ht.pageId]
    exact ht.limit
  case frame =>
    intro x ho hr
    by_cases hx : x = s.pageId
    · rw [hx, ht.page]
      exact hkva
    · rw [ht.pages x hx]
      obtain ⟨h1, h2, h3⟩ := h.frame x (hsome x hx ho) ((ht.res_other hx).mp hr)
      exact ⟨h1, h2, lt_of_lt_of_le h3 ht.room.1⟩
  case frame_inj =>
    intro x x' ho ho' hr hr' heq
    by_cases hx : x = s.pageId
    · by_cases hx' : x' = s.pageId
      · rw [hx, hx']
      · rw [hx, ht.page, ht.pages x' hx'] at heq
        exact absurd heq.symm (hfree x' (hsome x' hx' ho') ((ht.res_other hx').mp hr'))
    · by_cases hx' : x' = s.pageId
      · rw [hx', ht.page, ht.pages x hx] at heq
        exact absurd heq (hfree x (hsome x hx ho) ((ht.res_other hx).mp hr))
      · rw [ht.pages x hx, ht.pages x' hx'] at heq
        exact h.frame_inj x x' (hsome x hx ho) (hsome x' hx' ho') ((ht.res_other hx).mp hr)
          ((ht.res_other hx').mp hr') heq
  case status =>
    intro x q π hx
    obtain ⟨hne, hx⟩ := Takes.hold_path hx
    have hs := h.status x q π hx
    unfold Res at hs ⊢
    rw [ht.pages x hne]
    exact hs
  case loose =>
    intro x q hx
    by_cases hne : x = s.pageId
    · rw [hne]
      refine ⟨ht.res hst'.1, ?_⟩
      rw [ht.page]
      exact ⟨hst'.2, (h.fresh s.pageId le_rfl).2.2⟩
    · rw [hold_other _ _ hne] at hx
      have hs := h.loose x q hx
      unfold Res at hs ⊢
      rw [ht.pages x hne]
      exact hs
  case dir =>
    intro x q hx
    obtain ⟨hne, hx⟩ := Takes.hold_path hx
    rw [ht.pages x hne, ← h.dir x q hx]
    by_cases hq : q = p
    · rw [hq, ht.pgdir]
    · rw [ht.others q hq]
  case parent =>
    intro x q i π hx
    obtain ⟨_, hx⟩ := Takes.hold_path hx
    obtain ⟨hlen, hu, y, hy⟩ := h.parent x q i π hx
    exact ⟨hlen, hu, y, hkept hy⟩
  case slot =>
    intro x q π i hx hπ hu
    obtain ⟨hne, hx⟩ := Takes.hold_path hx
    rw [ht.pages x hne]
    rcases h.slot x q π i hx hπ hu with ⟨hor, hnone⟩ | ⟨y, hy, hf⟩
    · refine Or.inl ⟨?_, fun y hy => hnone y (Takes.hold_path hy).2⟩
      rw [ht.mem]
      rcases hor with habs | ⟨hlen, hp, hi, y, π', hy, hshared⟩
      · exact Or.inl habs
      · refine Or.inr ⟨hlen, hp, hi, y, π', hkept hy, ?_⟩
        rw [ht.pages y (Takes.hold_some h y hy)]
        exact hshared
    · refine Or.inr ⟨y, hkept hy, ?_⟩
      unfold Filled Res at hf ⊢
      rw [ht.mem, ht.pages y (Takes.hold_some h y hy)]
      exact hf
  case leaf =>
    intro x q π hx hπ
    obtain ⟨hne, hx⟩ := Takes.hold_path hx
    obtain ⟨hpath, hpte⟩ := h.leaf x q π hx hπ
    rw [ht.pages x hne]
    refine ⟨hpath, fun y hy => ?_⟩
    obtain ⟨hney, hy⟩ := Takes.hold_path hy
    rw [ht.pages y hney]
    exact hpte y hy

/-- A page that is taken leaves the sectors. -/
theorem Takes.stored (ht : Takes p kva st s s') (hst : st ≠ .notInMem)
    (hs : Stored own s) : Stored (hold own s.pageId p) s' := by
  obtain ⟨slot, hat, hinj⟩ := hs
  have hback : ∀ x, hold own s.pageId p x ≠ none → ¬ Res s' x →
      x ≠ s.pageId ∧ own x ≠ none ∧ ¬ Res s x := by
    intro x ho hr
    have hne : x ≠ s.pageId := by
      intro hcon
      rw [hcon] at hr
      exact hr (ht.res hst)
    rw [hold_other _ _ hne] at ho
    exact ⟨hne, ho, fun hcon => hr ((ht.res_other hne).mpr hcon)⟩
  refine ⟨slot, fun x ho hr => ?_, fun x x' ho ho' hr hr' => ?_⟩
  · obtain ⟨hne, ho, hr⟩ := hback x ho hr
    have hx := hat x ho hr
    unfold StoredAt at hx ⊢
    rw [ht.writes, ht.mem, ht.pages x hne]
    exact hx
  · obtain ⟨_, ho, hr⟩ := hback x ho hr
    obtain ⟨_, ho', hr'⟩ := hback x' ho' hr'
    exact hinj x x' ho ho' hr hr'

/-- A page that is taken carries all others. -/
theorem Takes.carries (h : Shape root own s) (ht : Takes p kva st s s') :
    Carries nobody own s s' := by
  refine ⟨by rw [ht.writes], fun _ x q π e c a hx _ _ hkept => ?_⟩
  exact hkept.same (ht.pages x (Takes.hold_some h x hx)) (fun _ _ _ => by rw [ht.mem])
    (fun _ _ => by rw [ht.mem]) fun _ _ _ _ _ _ => by rw [ht.sd]

/-- A page that is taken makes none copy on write. -/
theorem Takes.alone (ht : Takes p kva st s s') (hst : st = .swapable ∨ st = .unswapable) (x : Nat)
    (hx : (s'.pages x).status = .copyOnWrite) : (s.pages x).status = .copyOnWrite := by
  by_cases hne : x = s.pageId
  · rw [hne, ht.page] at hx
    rcases hst with rfl | rfl
    · cases hx
    · cases hx
  · rwa [ht.pages x hne] at hx

/-- One page more in memory. -/
theorem Takes.count (h : Shape root own s) (ht : Takes p kva st s s') (hst : st ≠ .notInMem) :
    count s' p = count s p + 1 := by
  have hne : ∀ x ∈ (s.procs p).pagehead, x ≠ s.pageId := by
    intro x hx
    obtain ⟨r, hr⟩ := (h.listed p x).mp hx
    exact Takes.hold_some h x hr
  unfold Mm.count
  rw [ht.pagehead, List.countP_append, List.countP_singleton, if_pos (decide_eq_true (ht.res hst))]
  congr 1
  refine List.countP_congr fun x hx => ?_
  simp only [ht.res_other (hne x hx)]

theorem Takes.tally_other (h : Shape root own s) (ht : Takes p kva st s s') {q : Nat} (hq : q ≠ p)
    (hta : Tally s q) : Tally s' q := by
  have hres : ∀ x ∈ (s.procs q).pagehead, (Res s' x ↔ Res s x) := by
    intro x hx
    obtain ⟨r, hr⟩ := (h.listed q x).mp hx
    exact ht.res_other (Takes.hold_some h x hr)
  have hprocs := ht.others q hq
  exact hta.congr (by rw [hprocs]) (by rw [hprocs]) (by rw [hprocs]) hres

end Takes

/-! ## Allocating -/

/-- The invariant within a call. -/
structure Near (root : Nat → Pte) (own : Owners) (s : State) : Prop where
  shape : Shape root own s
  tally : ∀ p, Tally s p
  stored : Stored own s
  drawn : Drawn s

/-- What `allocPagetable` gives. -/
structure Alloc (root : Nat → Pte) (own : Owners) (p : Nat) (st : PageStatus) (s : State)
    (r : Nat × State) : Prop where
  id : r.1 = s.pageId
  near : Near root (hold own s.pageId p) r.2
  settled : ∀ x q, hold own s.pageId p x = some (q, none) → x ≠ s.pageId →
    (r.2.pages x).status ≠ .swapable
  status : (r.2.pages s.pageId).status = st
  pages : ∀ x, own x ≠ none → (s.pages x).status ≠ .swapable → r.2.pages x = s.pages x
  alone : ∀ x, (r.2.pages x).status = .copyOnWrite → (s.pages x).status = .copyOnWrite
  procs : ∀ q, (r.2.procs q).pgdir = (s.procs q).pgdir ∧ (r.2.procs q).live = (s.procs q).live
  carries : Carries nobody own s r.2

/-- A descriptor for the frame of the page that was put away. -/
theorem alloc_full (hn : Near root own s) (hset : Settled own s)
    (hst : st = .swapable ∨ st = .unswapable) (hfull : (s.procs p).pagenum = (s.procs p).upbound)
    {k id i : Nat} {π : List Nat} {s₁ s' : State} (hsp : Spill own p k id i π s s₁)
    (ht : Takes p (s.pages k).kva st s₁ s')
    (hprocs : s'.procs p = { s₁.procs p with pagehead := (s₁.procs p).pagehead ++ [s₁.pageId] }) :
    Alloc root own p st s (s₁.pageId, s') := by
  have hid := hsp.evicts.pageId
  have hst' : st ≠ .notInMem := by
    rcases hst with rfl | rfl
    · decide
    · decide
  have h₁ := hsp.shape hn.shape
  obtain ⟨hgiven, hfree⟩ := hsp.free hn.shape
  have hgiven' : Given s' (s.pages k).kva :=
    ⟨hgiven.1, hgiven.2.1, lt_of_lt_of_le hgiven.2.2 ht.room.1⟩
  have hdr₁ : Drawn s₁ := hn.drawn.next hsp.evicts.writes hsp.evicts.sector
  have hprocs' : s'.procs p = { s.procs p with
      pagehead := (s.procs p).pagehead ++ [s₁.pageId] } := by
    rw [hprocs, hsp.evicts.procs]
  constructor
  case id => exact hid
  case near =>
    rw [← hid]
    refine ⟨ht.shape h₁ hst hgiven' hfree, fun q => ?_,
      ht.stored hst' (hsp.stored hn.shape hn.drawn hn.stored), hdr₁.same ht.writes ht.sector⟩
    by_cases hq : q = p
    · rw [hq]
      have hc := hsp.count hn.shape
      have hc' := ht.count h₁ hst'
      have hta := hn.tally p
      refine ⟨?_, ?_, fun _ => ?_⟩
      · rw [hc', ← hc, hta.count, hprocs']
      · rw [hprocs']
        exact hta.bound
      · rw [hprocs']
        exact hfull
    · exact ht.tally_other h₁ hq (hsp.tally_other hn.shape hq (hn.tally q))
  case settled =>
    intro x q hx hne
    rw [hold_other _ _ hne] at hx
    rw [ht.pages x (by rw [hid]; exact hne)]
    exact hsp.settled hset x q hx
  case status =>
    rw [← hid]
    change (s'.pages s₁.pageId).status = st
    rw [ht.page]
  case pages =>
    intro x hx hns
    have hne : x ≠ s₁.pageId := by
      obtain ⟨r, hr⟩ := Option.ne_none_iff_exists'.mp hx
      rw [hid]
      exact Takes.hold_some hn.shape x hr
    have hnk : x ≠ k := by
      intro hcon
      rw [hcon] at hns
      exact hns hsp.was
    change s'.pages x = s.pages x
    rw [ht.pages x hne, hsp.evicts.pages x hnk]
  case alone => exact fun x hx => hsp.alone x (ht.alone hst x hx)
  case procs =>
    intro q
    change (s'.procs q).pgdir = _ ∧ (s'.procs q).live = _
    by_cases hq : q = p
    · rw [hq, hprocs']
      exact ⟨rfl, rfl⟩
    · rw [ht.others q hq, hsp.evicts.procs]
      exact ⟨rfl, rfl⟩
  case carries =>
    exact (hsp.carries hn.shape hn.drawn hn.stored).trans (ht.carries h₁) fun _ _ _ hx _ => hx

/-- A descriptor for a new frame. -/
theorem alloc_room (hn : Near root own s) (hset : Settled own s)
    (hst : st = .swapable ∨ st = .unswapable) (hroom : (s.procs p).pagenum ≠ (s.procs p).upbound)
    {s' : State} (ht : Takes p s.kernMemCurr st s s')
    (hkern : s'.kernMemCurr = s.kernMemCurr + 4096)
    (hprocs : s'.procs p = { s.procs p with
      pagenum := (s.procs p).pagenum + 1
      pagehead := (s.procs p).pagehead ++ [s.pageId] }) :
    Alloc root own p st s (s.pageId, s') := by
  have hst' : st ≠ .notInMem := by
    rcases hst with rfl | rfl
    · decide
    · decide
  have hgiven : Given s' s.kernMemCurr :=
    ⟨hn.shape.room.1, hn.shape.room.2.1, by rw [hkern]; omega⟩
  have hfree : ∀ x, own x ≠ none → Res s x → (s.pages x).kva ≠ s.kernMemCurr := by
    intro x hx hr hcon
    have hlt := (hn.shape.frame x hx hr).2.2
    omega
  constructor
  case id => rfl
  case near =>
    refine ⟨ht.shape hn.shape hst hgiven hfree, fun q => ?_, ht.stored hst' hn.stored,
      hn.drawn.same ht.writes ht.sector⟩
    by_cases hq : q = p
    · rw [hq]
      have hc := ht.count hn.shape hst'
      have hta := hn.tally p
      have hall : ∀ x ∈ (s.procs p).pagehead, Res s x := by
        intro x hx
        by_contra hout
        exact hroom (hta.full ⟨x, hx, hout⟩)
      have hbound := hta.bound
      refine ⟨?_, ?_, fun hex => ?_⟩
      · rw [hc, hta.count, hprocs]
      · rw [hprocs]
        simp only
        omega
      · obtain ⟨x, hx, hout⟩ := hex
        rw [hprocs] at hx
        rcases List.mem_append.mp hx with hx | hx
        · have hne : x ≠ s.pageId := by
            obtain ⟨r, hr⟩ := (hn.shape.listed p x).mp hx
            exact Takes.hold_some hn.shape x hr
          exact absurd ((ht.res_other hne).mpr (hall x hx)) hout
        · rw [List.mem_singleton.mp hx] at hout
          exact absurd (ht.res hst') hout
    · exact ht.tally_other hn.shape hq (hn.tally q)
  case settled =>
    intro x q hx hne
    rw [hold_other _ _ hne] at hx
    rw [ht.pages x hne]
    exact hset x q hx
  case status =>
    change (s'.pages s.pageId).status = st
    rw [ht.page]
  case pages =>
    intro x hx _
    obtain ⟨r, hr⟩ := Option.ne_none_iff_exists'.mp hx
    exact ht.pages x (Takes.hold_some hn.shape x hr)
  case alone => exact ht.alone hst
  case procs =>
    intro q
    change (s'.procs q).pgdir = _ ∧ (s'.procs q).live = _
    by_cases hq : q = p
    · rw [hq, hprocs]
      exact ⟨rfl, rfl⟩
    · rw [ht.others q hq]
      exact ⟨rfl, rfl⟩
  case carries => exact ht.carries hn.shape

/-- A descriptor is taken for the frame of a page that is put away, or for a new one. -/
inductive Allots (own : Owners) (p : Nat) (st : PageStatus) (s s' : State) : Prop
  | full (k id i : Nat) (π : List Nat) (s₁ : State)
      (bound : (s.procs p).pagenum = (s.procs p).upbound) (spill : Spill own p k id i π s s₁)
      (takes : Takes p (s.pages k).kva st s₁ s') (kern : s'.kernMemCurr = s₁.kernMemCurr)
      (procs : s'.procs p = { s₁.procs p with
        pagehead := (s₁.procs p).pagehead ++ [s₁.pageId] })
  | room (bound : (s.procs p).pagenum ≠ (s.procs p).upbound)
      (takes : Takes p s.kernMemCurr st s s') (kern : s'.kernMemCurr = s.kernMemCurr + 4096)
      (procs : s'.procs p = { s.procs p with
        pagenum := (s.procs p).pagenum + 1
        pagehead := (s.procs p).pagehead ++ [s.pageId] })

/-- `allocPagetable` gives the next descriptor, with a fresh frame or that of an evicted page. -/
theorem allocPagetable_allots (h : Shape root own s) (hset : Settled own s) :
    Holds AnyStop (fun r => r.1 = s.pageId ∧ Allots own p st s r.2) (allocPagetable p st s) := by
  unfold allocPagetable
  split_ifs with hfull
  · refine Holds.bind (doSwap_spill h hset) fun r hr => ?_
    obtain ⟨k, id, i, π, hkva, hsp⟩ := hr
    obtain ⟨kva, s₁⟩ := r
    simp only at hkva hsp ⊢
    rw [findUnused_eq (hsp.shape h)]
    split_ifs with hlim
    · trivial
    · refine ⟨hsp.evicts.pageId, .full k id i π s₁ hfull hsp ?_ rfl (by simp [setProc, setPage])⟩
      have h₁ := hsp.shape h
      constructor
      case pageId => rfl
      case limit => omega
      case page => simp [setProc, setPage, hkva]
      case pages =>
        intro x hx
        simp [setProc, setPage, hx]
      case mem => rfl
      case sd => rfl
      case sector => rfl
      case writes => rfl
      case pagehead => simp [setProc, setPage]
      case pgdir => simp [setProc, setPage]
      case others =>
        intro q hq
        simp [setProc, setPage, hq]
      case room =>
        have hroom := h₁.room
        refine ⟨le_rfl, hroom.2.1, ?_⟩
        change s₁.kernMemCurr ≤ freememKernel + 4096 * (s₁.pageId + 1)
        omega
  · rw [findUnused_eq h]
    split_ifs with hlim
    · trivial
    · have hround : (s.kernMemCurr + 4095) / 4096 * 4096 = s.kernMemCurr := by
        have := h.room.2.1
        omega
      refine ⟨rfl, .room hfull ?_ ?_ (by simp [setProc, setPage])⟩
      · constructor
        case pageId => rfl
        case limit => omega
        case page => simp [setProc, setPage, hround]
        case pages =>
          intro x hx
          simp [setProc, setPage, hx]
        case mem => rfl
        case sd => rfl
        case sector => rfl
        case writes => rfl
        case pagehead => simp [setProc, setPage]
        case pgdir => simp [setProc, setPage]
        case others =>
          intro q hq
          simp [setProc, setPage, hq]
        case room =>
          have hroom := h.room
          change s.kernMemCurr ≤ (s.kernMemCurr + 4095) / 4096 * 4096 + 4096 ∧
            ((s.kernMemCurr + 4095) / 4096 * 4096 + 4096) % 4096 = 0 ∧
            (s.kernMemCurr + 4095) / 4096 * 4096 + 4096 ≤ freememKernel + 4096 * (s.pageId + 1)
          rw [hround]
          omega
      · change (s.kernMemCurr + 4095) / 4096 * 4096 + 4096 = s.kernMemCurr + 4096
        rw [hround]

/-- What `allocPagetable` gives within a call, and the invariant behind it. -/
theorem allocPagetable_alloc (hn : Near root own s) (hset : Settled own s)
    (hst : st = .swapable ∨ st = .unswapable) :
    Holds AnyStop (Alloc root own p st s) (allocPagetable p st s) := by
  refine (allocPagetable_allots hn.shape hset).mono fun r hr => ?_
  obtain ⟨x, s'⟩ := r
  obtain ⟨hx, hallots⟩ := hr
  simp only at hx hallots
  subst hx
  cases hallots with
  | full k id i π s₁ hfull hsp ht _ hprocs =>
      have hA := alloc_full hn hset hst hfull hsp ht hprocs
      rwa [hsp.evicts.pageId] at hA
  | room hroom ht hkern hprocs => exact alloc_room hn hset hst hroom ht hkern hprocs

end Mm
