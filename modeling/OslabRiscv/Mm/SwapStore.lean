import OslabRiscv.Mm.Accounts

/-!
# Out and back

A page that is put away and brought back later holds what it held, whatever has been put
away and brought back in between, and its entry differs only in the frame.  The step
that brings it back leaves all other pages alone but the one it puts away.
-/

namespace Mm

open Outcome

variable {root : Nat → Pte} {own : Owners} {s s' : State} {p id : Nat} {π : List Nat}

/-- No event of a run takes back a sector. -/
theorem run_more (es : List Event) :
    ∀ {own : Owners} {s s' : State}, Sane root own s → Rooted own s → Unshared s →
      (∀ e ∈ es, UserEvent root e) → run handle es s = .ok s' → s.writes.length ≤ s'.writes.length := by
  induction es with
  | nil =>
      intro own s s' _ _ _ _ hrun
      cases hrun
      exact le_rfl
  | cons e es ih =>
      intro own s s' hs hr hun hes hrun
      obtain ⟨s₁, hs₁, hrest⟩ := run_cons hrun
      obtain ⟨own₁, ha⟩ := (handle_after hs hr hun (hes e List.mem_cons_self)).of_ok hs₁
      exact ha.more.trans
        (ih ha.sane ha.rooted (ha.unshared hun) (fun e' he' => hes e' (List.mem_cons_of_mem _ he')) hrest)

/-- A page that stays out through a run is kept. -/
theorem run_kept {c : Nat → Pte} {a : BitVec 10} {e₀ : Nat × Nat} (es : List Event) :
    ∀ {own : Owners} {s s' : State}, Sane root own s → Rooted own s → Unshared s →
      (∀ e ∈ es, UserEvent root e ∧ ¬ e.replaces p) → own id = some (p, some π) → π.length = 3 →
      run handle es s = .ok s' → s'.writes.length ≤ 2 ^ 29 →
      (∀ n u, run handle (es.take n) s = .ok u → ¬ Res u id) → Kept s id e₀ c a →
      ∃ own', Sane root own' s' ∧ Rooted own' s' ∧ own' id = some (p, some π) ∧
        Kept s' id e₀ c a := by
  induction es with
  | nil =>
      intro own s s' hs hr _ _ hid _ hrun _ _ hkept
      cases hrun
      exact ⟨own, hs, hr, hid, hkept⟩
  | cons e es ih =>
      intro own s s' hs hr hun hes hid hπ hrun hlen hstay hkept
      obtain ⟨s₁, hs₁, hrest⟩ := run_cons hrun
      obtain ⟨hue, hne⟩ := hes e List.mem_cons_self
      have hes' : ∀ e' ∈ es, UserEvent root e' ∧ ¬ e'.replaces p :=
        fun e' he' => hes e' (List.mem_cons_of_mem _ he')
      obtain ⟨own₁, ha⟩ := (handle_after hs hr hun hue).of_ok hs₁
      have hmore := run_more es ha.sane ha.rooted (ha.unshared hun) (fun e' he' => (hes' e' he').1) hrest
      have hk₁ := ha.carries (hmore.trans hlen) id p π e₀ c a hid hπ hne
        (Or.inl (hstay 0 s rfl)) hkept
      refine ih ha.sane ha.rooted (ha.unshared hun) hes' (ha.kept id p _ hid hne) hπ hrest hlen (fun n u hu => ?_) hk₁
      refine hstay (n + 1) u ?_
      simp only [List.take_succ_cons, run, hs₁]
      exact hu

/-- The step that brings a page back leaves the others alone. -/
theorem Comes.others (h : Shape root own s) (hc : Comes own p id s s') :
    ∃ v, (s.pages v).status = .swapable ∧ ∀ q x t i, own x ≠ none → x ≠ id → x ≠ v →
      (s.pages x).status ≠ .notInMem → EntryAt s q x t i →
      s'.pages x = s.pages x ∧ s'.mem t i = s.mem t i ∧
        ∀ j, s'.mem (s.pages x).kva j = s.mem (s.pages x).kva j := by
  obtain ⟨va, tab, k₁, id₁, i₁, π₁, s₁, hsp, hf⟩ := hc
  refine ⟨k₁, hsp.was, fun q x t i hx hne hnv hres hat => ?_⟩
  have h₁ := hsp.shape h
  have hpages₁ : s₁.pages x = s.pages x := hsp.evicts.pages x hnv
  have hpages₂ : s'.pages x = s.pages x := by
    rw [hf.brings.pages x hne, hpages₁]
  have hres₁ : Res s₁ x := (hsp.res_other hnv).mpr hres
  -- a page with an entry is no table
  obtain ⟨⟨q', r⟩, hown⟩ := Option.ne_none_iff_exists'.mp hx
  have hleaf : ∃ π, r = some π ∧ π.length = 3 := by
    cases r with
    | none =>
        have hpte := (h.loose x q' hown).2.2
        rw [hat.1] at hpte
        cases hpte
    | some π =>
        refine ⟨π, rfl, ?_⟩
        by_contra hlen
        cases π with
        | nil =>
            have hpte := ((h.status x q' _ hown).1 (by simp)).2
            rw [hat.1] at hpte
            cases hpte
        | cons i' π' =>
            have hle := (h.parent x q' i' π' hown).1
            have hpte := ((h.status x q' _ hown).1 (by simp at hlen ⊢; omega)).2
            rw [hat.1] at hpte
            cases hpte
  obtain ⟨π, rfl, hπ⟩ := hleaf
  obtain ⟨i', π', tx, rfl, hπ', htx, hpte⟩ := h.entryOf hown hπ
  rw [hat.1] at hpte
  cases hpte
  have htxne : tx ≠ k₁ := by
    intro hcon
    have hp := hsp.page
    rw [← hcon, htx] at hp
    have hl := congrArg List.length (Option.some.inj (Prod.mk.inj (Option.some.inj hp)).2)
    have := hsp.len
    simp at hl
    omega
  have hentry₁ : s₁.mem (s.pages tx).kva i = s.mem (s.pages tx).kva i := by
    refine (hsp.links h).mem tx q' π' i htx (by omega) ?_
    by_contra hcon
    rw [not_or, not_not, not_not] at hcon
    obtain ⟨rfl, rfl⟩ := hcon
    have ht := hsp.table
    rw [htx] at ht
    cases ht
    exact hnv (h.path_inj _ _ _ _ hown hsp.page)
  have hentry₂ : s'.mem (s.pages tx).kva i = s₁.mem (s.pages tx).kva i := by
    have hm := (hf.links h₁).mem tx q' π' i htx (by omega) ?_
    · rwa [hsp.evicts.pages tx htxne] at hm
    · by_contra hcon
      rw [not_or, not_not, not_not] at hcon
      obtain ⟨rfl, rfl⟩ := hcon
      have ht := hf.table
      rw [htx] at ht
      cases ht
      exact hne (h.path_inj _ _ _ _ hown hf.page)
  have hfr : ∀ y q'' π'', own y = some (q'', some π'') → π''.length = 2 → y ≠ x := by
    intro y q'' π'' hy hlen hcon
    rw [hcon, hown] at hy
    cases hy
    simp at hlen
    omega
  refine ⟨hpages₂, hentry₂.trans hentry₁, fun j => ?_⟩
  have hj₁ : s₁.mem (s.pages x).kva j = s.mem (s.pages x).kva j := by
    refine hsp.evicts.mem _ j (Or.inl ?_) ?_
    · exact h.frames_ne hx (by rw [hsp.table]; simp) hres
        (h.table_res hsp.table (by rw [hsp.len])) (hfr id₁ p π₁ hsp.table hsp.len).symm
    · rw [hsp.frame]
      exact h.frames_ne hx (by rw [hsp.page]; simp) hres hsp.res hnv
  rw [← hj₁, ← hpages₁]
  refine hf.brings.mem _ j (Or.inl ?_) (hf.free x hx hres₁)
  exact h₁.frames_ne hx (by rw [hf.table]; simp) hres₁ (h₁.table_res hf.table (by simp))
    (hfr tab p _ hf.table rfl).symm

/-- **Pages come back as they went.**  In a run from boot at user addresses and without
snapshots, with at most 1792 evictions: a page of a process that one step puts away and a
later step brings back, whatever happens in between, holds what it held, has the
attributes it had and the number of its new frame in its entry; and the step that brings it
back leaves all other pages in memory, with their entries, alone but for the one it puts
away. -/
theorem swap_round_trip {s₀ s₁ s₂ s₃ : State} {es es' : List Event} {e e' : Event}
    (hboot : Booted s₀) (hes : ∀ x ∈ es, UserEvent (s₀.mem (pa2kva pgdirPa)) x)
    (hlater : ∀ x ∈ e :: e' :: es', UserEvent (s₀.mem (pa2kva pgdirPa)) x ∧ ¬ x.replaces p)
    (hrun : run handle es s₀ = .ok s) (hid : id ∈ (s.procs p).pagehead)
    (hin : (s.pages id).status ≠ .notInMem) (hevict : handle e s = .ok s₁)
    (hout : (s₁.pages id).status = .notInMem) (hmid : run handle es' s₁ = .ok s₂)
    (hstay : ∀ n u, run handle (es'.take n) s₁ = .ok u → (u.pages id).status = .notInMem)
    (hback : handle e' s₂ = .ok s₃) (hin' : (s₃.pages id).status ≠ .notInMem)
    (hlen : s₃.writes.length ≤ 1792) :
    (∀ j, j < 512 → s₃.mem (s₃.pages id).kva j = s.mem (s.pages id).kva j) ∧
      (∃ t i, EntryAt s p id t i ∧ EntryAt s₃ p id t i ∧
        (s₃.mem t i).attr = (s.mem t i).attr ∧ (s₃.mem t i).has present = true ∧
        (s₃.mem t i).has inSd = false ∧ pageOf (s₃.mem t i) = (s₃.pages id).kva) ∧
      ∃ v, (s₂.pages v).status = .swapable ∧ ∀ q, ∀ x ∈ (s₂.procs q).pagehead, x ≠ id → x ≠ v →
        (s₂.pages x).status ≠ .notInMem → ∀ t i, EntryAt s₂ q x t i →
          s₃.pages x = s₂.pages x ∧ s₃.mem t i = s₂.mem t i ∧
            ∀ j, s₃.mem (s₂.pages x).kva j = s₂.mem (s₂.pages x).kva j := by
  obtain ⟨⟨own, hs, hr⟩, hun⟩ := run_good hboot hes hrun
  obtain ⟨hue, hne⟩ := hlater e List.mem_cons_self
  obtain ⟨hue', hne'⟩ := hlater e' (List.mem_cons_of_mem _ List.mem_cons_self)
  have hes' : ∀ x ∈ es', UserEvent (s₀.mem (pa2kva pgdirPa)) x ∧ ¬ x.replaces p :=
    fun x hx => hlater x (List.mem_cons_of_mem _ (List.mem_cons_of_mem _ hx))
  obtain ⟨own₁, ha₁⟩ := (handle_after hs hr hun hue).of_ok hevict
  -- the page is one of the process's own
  obtain ⟨r, hown⟩ := (hs.shape.listed p id).mp hid
  have hown₁ := ha₁.kept id p r hown hne
  have hout₁ : ¬ Res s₁ id := fun hcon => hcon hout
  obtain ⟨q, i₀, π₀, tab₁, hown₁', hπ₀, _⟩ := ha₁.sane.shape.out_entry (by rw [hown₁]; simp) hout₁
  rw [hown₁] at hown₁'
  cases hown₁'
  have hπ : (i₀ :: π₀).length = 3 := by simp [hπ₀]
  obtain ⟨i, π', tab, hcons, hπ', htab, hpte⟩ := hs.shape.entryOf hown hπ
  -- what it holds, from the step that puts it away to the one that brings it back
  have hkept : Kept s id ((s.pages tab).kva, i) (fun j => s.mem (s.pages id).kva j)
      (s.mem (s.pages tab).kva i).attr :=
    ⟨hpte, fun _ => ⟨fun _ _ => rfl, rfl⟩, fun hcon => absurd hin hcon⟩
  have hgood₂ : Good (s₀.mem (pa2kva pgdirPa)) s₂ ∧ Unshared s₂ := by
    refine run_good (s := s₂) hboot (fun x hx => ?_)
      (show run handle (es ++ e :: es') s₀ = .ok s₂ by
        rw [run_append_ok hrun]
        simp only [run, hevict]
        exact hmid)
    rcases List.mem_append.mp hx with hx | hx
    · exact hes x hx
    · rcases List.mem_cons.mp hx with rfl | hx
      · exact hue
      · exact (hes' x hx).1
  have hmore : s₂.writes.length ≤ s₃.writes.length := by
    obtain ⟨⟨_, hs₂, hr₂⟩, hun₂⟩ := hgood₂
    obtain ⟨_, ha⟩ := (handle_after hs₂ hr₂ hun₂ hue').of_ok hback
    exact ha.more
  have hmore₂ := run_more es' ha₁.sane ha₁.rooted (ha₁.unshared hun) (fun x hx => (hes' x hx).1) hmid
  have hkept₁ := ha₁.carries (by omega) id p _ _ _ _ hown hπ hne (Or.inr hout₁) hkept
  obtain ⟨own₂, hs₂, hr₂, hown₂, hkept₂⟩ := run_kept es' ha₁.sane ha₁.rooted (ha₁.unshared hun) hes' hown₁ hπ
    hmid (by omega) (fun n u hu hcon => hcon (hstay n u hu)) hkept₁
  have hout₂ : ¬ Res s₂ id := by
    refine fun hcon => hcon (hstay es'.length s₂ ?_)
    rw [List.take_length]
    exact hmid
  obtain ⟨own₃, ha₃⟩ := (handle_after hs₂ hr₂ hgood₂.2 hue').of_ok hback
  obtain ⟨hpte₃, hin₃, _⟩ := ha₃.carries (by omega) id p _ _ _ _ hown₂ hπ hne' (Or.inl hout₂) hkept₂
  obtain ⟨hc, hattr⟩ := hin₃ hin'
  have hown₃ := ha₃.kept id p _ hown₂ hne'
  refine ⟨hc, ?_, ?_⟩
  · -- the entry
    have hat : ∀ {own : Owners} {u : State}, Sane (s₀.mem (pa2kva pgdirPa)) own u →
        own id = some (p, some (i₀ :: π₀)) → (u.pages id).pte = some ((s.pages tab).kva, i) →
        EntryAt u p id (s.pages tab).kva i := by
      intro own u hu ho hp
      obtain ⟨hpath, _⟩ := hu.shape.leaf id p _ ho hπ
      obtain ⟨i', π'', tab', hcons', _, htab', hp'⟩ := hu.shape.entryOf ho hπ
      rw [hp] at hp'
      injection hp' with hpair
      injection hpair with hkva hi
      refine ⟨hp, ?_, ?_⟩
      · rw [hi]
        rw [hcons'] at hpath
        exact (List.cons.inj hpath).1
      · rw [hkva]
        refine hu.shape.leads ?_
        rw [hcons'] at hpath
        rw [← (List.cons.inj hpath).2]
        exact htab'
    have hat₃ := hat ha₃.sane hown₃ hpte₃
    refine ⟨(s.pages tab).kva, i, hat hs hown hpte, hat₃, hattr, ?_⟩
    obtain ⟨i', π'', tab', hcons', hlen', htab', hp'⟩ := ha₃.sane.shape.entryOf hown₃ hπ
    rw [hpte₃] at hp'
    injection hp' with hpair
    injection hpair with hkva hi
    rw [hcons'] at hown₃
    rcases ha₃.sane.shape.filled hown₃ htab' with ⟨_, hp, hpage, hsd⟩ | ⟨hcon, _⟩
    · rw [hkva, hi]
      exact ⟨hp, hsd hlen', hpage⟩
    · exact absurd hin' hcon
  · obtain ⟨v, hv, hothers⟩ := (ha₃.back id p _ hown₂ hne' hout₂ hin').others hs₂.shape
    refine ⟨v, hv, fun q x hx hne hnv hres t i hat => ?_⟩
    exact hothers q x t i (hs₂.shape.owned hx) hne hnv hres hat

/-- A process with one frame left uses it for the page at `0x20000`, and stores there. -/
def storedTo : List Event :=
  [.exec 0 blank blank [(0x10000, blank)],
    .exec 1 blank blank ((List.range 16).map fun k => (0x10000 + 4096 * k, blank)),
    .load 1 0x20000, .put 1 0x20008 ⟨7, 5⟩]

/-- The page at `0x20000` is put away for another one, and comes back after a third. -/
theorem swap_round_trip_storedTo :
    ∃ s s₁ s₂ s₃, run handle storedTo bootState = .ok s ∧ handle (.load 1 0x21000) s = .ok s₁ ∧
      handle (.load 1 0x22000) s₁ = .ok s₂ ∧ handle (.load 1 0x20000) s₂ = .ok s₃ ∧
      (s₂.pages 31).status = .notInMem ∧ s₃.mem (s₃.pages 31).kva 1 = ⟨7, 5⟩ := by
  have hrun : returns (fun s => 31 ∈ (s.procs 1).pagehead ∧ (s.pages 31).status ≠ .notInMem ∧
      s.mem (s.pages 31).kva 1 = ⟨7, 5⟩ ∧
      returns (fun s₁ => (s₁.pages 31).status = .notInMem ∧
        returns (fun s₂ => (s₂.pages 31).status = .notInMem ∧
          returns (fun s₃ => (s₃.pages 31).status ≠ .notInMem ∧ s₃.writes.length ≤ 1792)
            (handle (.load 1 0x20000) s₂) = true) (handle (.load 1 0x22000) s₁) = true)
        (handle (.load 1 0x21000) s) = true) (run handle storedTo bootState) = true := by
    decide +kernel
  obtain ⟨s, hs, hid, hin, hword, h₁⟩ := exists_of_returns hrun
  obtain ⟨s₁, hs₁, hout₁, h₂⟩ := exists_of_returns h₁
  obtain ⟨s₂, hs₂, hout₂, h₃⟩ := exists_of_returns h₂
  obtain ⟨s₃, hs₃, hin₃, hlen⟩ := exists_of_returns h₃
  have hmid : run handle [.load 1 0x22000] s₁ = .ok s₂ := by
    simp only [run, hs₂]
    rfl
  have hstay : ∀ n u, run handle ([Event.load 1 0x22000].take n) s₁ = .ok u →
      (u.pages 31).status = .notInMem := by
    intro n u hu
    cases n with
    | zero =>
        cases hu
        exact hout₁
    | succ n =>
        rw [List.take_succ_cons, List.take_nil, hmid] at hu
        cases hu
        exact hout₂
  have huser : ∀ x ∈ storedTo, UserEvent (bootState.mem (pa2kva pgdirPa)) x := by
    intro x hx
    simp only [storedTo, List.mem_cons, List.not_mem_nil, or_false] at hx
    rcases hx with rfl | rfl | rfl | rfl
    · decide
    · decide
    · decide
    · decide
  have hlater : ∀ x ∈ [Event.load 1 0x21000, .load 1 0x20000, .load 1 0x22000],
      UserEvent (bootState.mem (pa2kva pgdirPa)) x ∧ ¬ x.replaces 1 := by
    intro x hx
    simp only [List.mem_cons, List.not_mem_nil, or_false] at hx
    rcases hx with rfl | rfl | rfl
    · exact ⟨by decide, fun hcon => hcon⟩
    · exact ⟨by decide, fun hcon => hcon⟩
    · exact ⟨by decide, fun hcon => hcon⟩
  have hback := (swap_round_trip bootState_booted huser hlater hs hid hin hs₁ hout₁ hmid hstay hs₃
    hin₃ hlen).1 1 (by decide)
  exact ⟨s, s₁, s₂, s₃, hs, hs₁, hs₂, hs₃, hout₂, hback.trans hword⟩

end Mm
