import OslabRiscv.Sched.Mutex

/-!
# Mutual exclusion

A task holds a mutex from the moment its acquire succeeds, at once or by leaving
the queue alive, until it releases the mutex or ends.  `observe` keeps this
history from the outside: it looks at a call and at the states before and after
it, never at the owner field.  If tasks are started by `do_exec` only and
release only what they hold, every mutex has at most one holder, it is the
owner, and those who wait get the mutex in the order they came, as far as they
live.
-/

namespace Sched

open IntrusiveList Outcome

instance (s : State) (j : Nat) : Decidable (Live s j) := inferInstanceAs (Decidable (_ ∧ _))

/-- What happened at each mutex.  A ticket is its number and the PCB that drew
it when it began to wait. -/
structure History where
  holders : Nat → List Nat
  arrived : Nat → List (Nat × Nat)
  waiting : Nat → List (Nat × Nat)
  granted : Nat → List (Nat × Nat)
  lost : Nat → List (Nat × Nat)

def History.init : History := ⟨fun _ => [], fun _ => [], fun _ => [], fun _ => [], fun _ => []⟩

/-- The caller, if its acquire succeeds at once. -/
def taker (c : Call) (s : State) (k : Nat) : List Nat :=
  match c, s.coreRunning 0 with
  | .acquire m _, .task i => if m = k ∧ (s.mlocks k).locked = false then [i] else []
  | _, _ => []

/-- The caller releases the mutex. -/
def releases (c : Call) (s : State) (k j : Nat) : Bool := c = .release k && s.coreRunning 0 = .task j

/-- The task is in the queue of the mutex before but not after. -/
def left (s s' : State) (k j : Nat) : Bool :=
  j ∈ queued (.lock k) s && !(j ∈ queued (.lock k) s')

/-- Tickets for those who began to wait. -/
def drawn (s s' : State) (g : History) (k : Nat) : List (Nat × Nat) :=
  ((queued (.lock k) s').filter fun j => !(j ∈ queued (.lock k) s)).map
    fun j => ((g.arrived k).length, j)

/-- The history after a call, from the states before and after it. -/
def observe (c : Call) (s s' : State) (g : History) : History where
  holders k :=
    (g.holders k).filter (fun j => Live s' j && !releases c s k j) ++ taker c s k ++
      (queued (.lock k) s).filter (fun j => left s s' k j && Live s' j)
  arrived k := g.arrived k ++ drawn s s' g k
  waiting k := (g.waiting k).filter (fun t => !left s s' k t.2) ++ drawn s s' g k
  granted k := g.granted k ++ (g.waiting k).filter (fun t => left s s' k t.2 && Live s' t.2)
  lost k := g.lost k ++ (g.waiting k).filter (fun t => left s s' k t.2 && !Live s' t.2)

/-- A call with its history. -/
def stepSeen (c : Call) (p : State × History) : Except Stop (State × History) := do
  let s' ← step 0 c p.1
  .ok (s', observe c p.1 s' p.2)

/-- Tasks are started by `do_exec`, and release what they hold. -/
def Disciplined (p : State × History) : Call → Prop
  | .threadCreate => False
  | .release k => ∀ i, p.1.coreRunning 0 = .task i → i ∈ p.2.holders k
  | _ => True

/-- What holds of mutex `k`. -/
structure Exclusion (s : State) (g : History) (k : Nat) : Prop where
  /-- At most one task holds it. -/
  single : (g.holders k).length ≤ 1
  /-- The holder is the owner. -/
  owner : ∀ j ∈ g.holders k, (s.pcb j).pid = (s.mlocks k).owner
  /-- Unlocked, nobody waits for it or holds it. -/
  unlocked : (s.mlocks k).locked = false → queued (.lock k) s = [] ∧ g.holders k = []
  /-- The tickets not yet served are those of the queue. -/
  queue : (g.waiting k).map Prod.snd = queued (.lock k) s
  /-- Tickets are served in the order they were drawn, except those of tasks
  that ended while they waited. -/
  order : g.granted k ++ g.waiting k = (g.arrived k).filter fun t => !(t ∈ g.lost k)

/-! ## Tickets -/

section Tickets

theorem filter_of_sublist {l l' : List Nat} (h : l'.Sublist l) (hnd : l.Nodup) :
    l.filter (fun j => decide (j ∈ l')) = l' := by
  induction h with
  | slnil => rfl
  | @cons l₁ l₂ a hsub ih =>
      have ha : a ∉ l₁ := fun hmem => (List.nodup_cons.mp hnd).1 (hsub.mem hmem)
      rw [List.filter_cons_of_neg (by simpa using ha)]
      exact ih (List.nodup_cons.mp hnd).2
  | @cons_cons l₁ l₂ a hsub ih =>
      rw [List.filter_cons_of_pos (by simp)]
      have hcongr : l₂.filter (fun j => decide (j ∈ a :: l₁)) =
          l₂.filter (fun j => decide (j ∈ l₁)) := by
        refine List.filter_congr (fun x hx => ?_)
        have hxa : x ≠ a := fun heq => (List.nodup_cons.mp hnd).1 (heq ▸ hx)
        simp [hxa]
      rw [hcongr, ih (List.nodup_cons.mp hnd).2]

/-- The tickets of one mutex, whose queue is `l`. -/
structure Tickets (arrived waiting granted lost : List (Nat × Nat)) (l : List Nat) : Prop where
  queue : waiting.map Prod.snd = l
  order : granted ++ waiting = arrived.filter fun t => !(t ∈ lost)
  nodup : arrived.Nodup
  serial : ∀ t ∈ arrived, t.1 < arrived.length
  lost_arrived : ∀ t ∈ lost, t ∈ arrived

variable {arrived waiting granted lost : List (Nat × Nat)} {l l' : List Nat}

theorem Tickets.draw (ht : Tickets arrived waiting granted lost l) (i : Nat) :
    Tickets (arrived ++ [(arrived.length, i)]) (waiting ++ [(arrived.length, i)]) granted lost
      (l ++ [i]) := by
  have hnew : (arrived.length, i) ∉ arrived := by
    intro hmem
    have := ht.serial _ hmem
    simp at this
  refine ⟨?_, ?_, ?_, ?_, ?_⟩
  · rw [List.map_append, ht.queue]
    rfl
  · have hlost : (arrived.length, i) ∉ lost := fun hmem => hnew (ht.lost_arrived _ hmem)
    rw [List.filter_append, ← List.append_assoc, ht.order]
    simp [hlost]
  · rw [List.nodup_append]
    refine ⟨ht.nodup, List.nodup_singleton _, ?_⟩
    intro a ha b hb heq
    rw [List.mem_singleton.mp hb] at heq
    exact hnew (heq ▸ ha)
  · intro t ht'
    rw [List.length_append, List.length_singleton]
    rcases List.mem_append.mp ht' with hmem | hmem
    · have := ht.serial t hmem
      omega
    · rw [List.mem_singleton.mp hmem]
      exact Nat.lt_succ_self _
  · intro t hmem
    exact List.mem_append_left _ (ht.lost_arrived t hmem)

/-- Some leave the queue; only the first of them may be served. -/
theorem Tickets.leave (ht : Tickets arrived waiting granted lost l) (hsub : l'.Sublist l)
    (hnd : l.Nodup) {p : Nat → Bool} (hfirst : ∀ j ∈ l.tail, j ∉ l' → p j = false) :
    Tickets arrived (waiting.filter fun t => decide (t.2 ∈ l'))
      (granted ++ waiting.filter fun t => !(decide (t.2 ∈ l')) && p t.2)
      (lost ++ waiting.filter fun t => !(decide (t.2 ∈ l')) && !p t.2) l' := by
  have hsplit : (granted ++ waiting).Nodup := by
    rw [ht.order]
    exact ht.nodup.filter _
  have harrived : ∀ t ∈ waiting, t ∈ arrived := by
    intro t hmem
    have hmem' : t ∈ granted ++ waiting := List.mem_append_right _ hmem
    rw [ht.order] at hmem'
    exact List.mem_of_mem_filter hmem'
  refine ⟨?_, ?_, ht.nodup, ht.serial, ?_⟩
  · have hmap : (waiting.filter fun t => decide (t.2 ∈ l')).map Prod.snd =
        (waiting.map Prod.snd).filter fun j => decide (j ∈ l') := by
      rw [List.filter_map]
      rfl
    rw [hmap, ht.queue]
    exact filter_of_sublist hsub hnd
  · -- the tickets lost now are dropped from those that count
    have hlost : (arrived.filter fun t => !(decide (t ∈ lost ++
          waiting.filter fun t => !(decide (t.2 ∈ l')) && !p t.2))) =
        (granted ++ waiting).filter fun t => !(decide (t ∈
          waiting.filter fun t => !(decide (t.2 ∈ l')) && !p t.2)) := by
      rw [ht.order, List.filter_filter]
      refine List.filter_congr (fun t _ => ?_)
      simp only [List.mem_append, Bool.decide_or, Bool.not_or]
      exact Bool.and_comm _ _
    have hgranted : (granted.filter fun t => !(decide (t ∈
          waiting.filter fun t => !(decide (t.2 ∈ l')) && !p t.2))) = granted := by
      rw [List.filter_eq_self]
      intro t hmem
      have hnot : t ∉ waiting := fun hw => (List.nodup_append.mp hsplit).2.2 t hmem t hw rfl
      simp [hnot]
    have hwaiting : (waiting.filter fun t => !(decide (t ∈
          waiting.filter fun t => !(decide (t.2 ∈ l')) && !p t.2))) =
        waiting.filter fun t => decide (t.2 ∈ l') || p t.2 := by
      refine List.filter_congr (fun t hmem => ?_)
      by_cases hin : t.2 ∈ l'
      · simp [hin]
      · cases ha : p t.2 <;> simp [hin, hmem, ha]
    rw [hlost, List.filter_append, hgranted, hwaiting, List.append_assoc]
    congr 1
    -- only the first ticket can be served
    cases hw : waiting with
    | nil => rfl
    | cons t rest =>
        have hrest : ∀ u ∈ rest, u.2 ∉ l' → p u.2 = false := by
          intro u hu hnot
          refine hfirst u.2 ?_ hnot
          rw [← ht.queue, hw]
          exact List.mem_map_of_mem hu
        have hr₁ : (rest.filter fun u => !(decide (u.2 ∈ l')) && p u.2) = [] := by
          rw [List.filter_eq_nil_iff]
          intro u hu
          by_cases hin : u.2 ∈ l'
          · simp [hin]
          · simp [hrest u hu hin]
        have hr₂ : (rest.filter fun u => decide (u.2 ∈ l') || p u.2) =
            rest.filter fun u => decide (u.2 ∈ l') := by
          refine List.filter_congr (fun u hu => ?_)
          by_cases hin : u.2 ∈ l'
          · simp [hin]
          · simp [hin, hrest u hu hin]
        by_cases hin : t.2 ∈ l'
        · simp [hin, hr₁, hr₂]
        · cases ha : p t.2 <;> simp [hin, ha, hr₁, hr₂]
  · intro t hmem
    rcases List.mem_append.mp hmem with hmem | hmem
    · exact ht.lost_arrived t hmem
    · exact harrived t (List.mem_of_mem_filter hmem)

end Tickets

/-! ## One mutex -/

/-- What is kept of mutex `k` along a run. -/
structure Held (s : State) (q : Node → List Nat) (g : History) (k : Nat) : Prop where
  single : (g.holders k).length ≤ 1
  live : ∀ j ∈ g.holders k, j < numMaxTask ∧ Live s j
  owner : ∀ j ∈ g.holders k, (s.pcb j).pid = (s.mlocks k).owner
  unlocked : (s.mlocks k).locked = false → q (.lock k) = [] ∧ g.holders k = []
  unowned : (s.mlocks k).owner = -1 → (s.mlocks k).locked = false
  tickets : Tickets (g.arrived k) (g.waiting k) (g.granted k) (g.lost k) (q (.lock k))

section Held

variable {s s' : State} {q q' : Node → List Nat} {g : History} {c : Call} {k : Nat}

/-- Those who left the queue alive. -/
def served (s' : State) (l l' : List Nat) : List Nat :=
  l.filter fun j => !(decide (j ∈ l')) && decide (Live s' j)

/-- A task leaves the queue of a lock when it is not in it any more. -/
theorem left_eq (ht : Tidy 1 s q) (ht' : Tidy 1 s' q') (hk : k < lockNum) {j : Nat}
    (hj : j ∈ q (.lock k)) : left s s' k j = !(decide (j ∈ q' (.lock k))) := by
  unfold left
  rw [ht.queued_eq (h := .lock k) hk, ht'.queued_eq (h := .lock k) hk]
  simp [hj]

/-- Who holds a lock behind a call: who held it and neither released it nor ended, who took it, and
who was served. -/
theorem observe_holders (ht : Tidy 1 s q) (ht' : Tidy 1 s' q') (hk : k < lockNum) :
    (observe c s s' g).holders k =
      (g.holders k).filter (fun j => Live s' j && !releases c s k j) ++ taker c s k ++
        served s' (q (.lock k)) (q' (.lock k)) := by
  unfold served
  have hserved : ((queued (.lock k) s).filter fun j => left s s' k j && Live s' j) =
      (q (.lock k)).filter fun j => !(decide (j ∈ q' (.lock k))) && decide (Live s' j) := by
    rw [ht.queued_eq (h := .lock k) hk]
    refine List.filter_congr (fun j hj => ?_)
    rw [left_eq ht ht' hk hj]
  rw [← hserved]
  rfl

/-- The tickets when nobody comes. -/
theorem observe_leave (ht : Tidy 1 s q) (ht' : Tidy 1 s' q') (hk : k < lockNum)
    (htk : Tickets (g.arrived k) (g.waiting k) (g.granted k) (g.lost k) (q (.lock k)))
    (hsub : (q' (.lock k)).Sublist (q (.lock k)))
    (hfirst : ∀ j ∈ (q (.lock k)).tail, j ∉ q' (.lock k) → ¬ Live s' j) :
    Tickets ((observe c s s' g).arrived k) ((observe c s s' g).waiting k)
      ((observe c s s' g).granted k) ((observe c s s' g).lost k) (q' (.lock k)) := by
  have hdrawn : drawn s s' g k = [] := by
    unfold drawn
    rw [ht.queued_eq (h := .lock k) hk, ht'.queued_eq (h := .lock k) hk]
    have hnil : ((q' (.lock k)).filter fun j => !(decide (j ∈ q (.lock k)))) = [] := by
      rw [List.filter_eq_nil_iff]
      intro j hj
      simp [hsub.mem hj]
    rw [hnil]
    rfl
  have hmem : ∀ t ∈ g.waiting k, t.2 ∈ q (.lock k) := by
    intro t hw
    rw [← htk.queue]
    exact List.mem_map_of_mem hw
  have hleft : ∀ t ∈ g.waiting k, left s s' k t.2 = !(decide (t.2 ∈ q' (.lock k))) :=
    fun t hw => left_eq ht ht' hk (hmem t hw)
  have hall := htk.leave hsub ht.queues.nodup (p := fun j => decide (Live s' j))
    (fun j hj hnot => by simpa using hfirst j hj hnot)
  have hw : (observe c s s' g).waiting k =
      (g.waiting k).filter fun t => decide (t.2 ∈ q' (.lock k)) := by
    change (g.waiting k).filter _ ++ drawn s s' g k = _
    rw [hdrawn, List.append_nil]
    refine List.filter_congr (fun t hw => ?_)
    rw [hleft t hw, Bool.not_not]
  have hg : (observe c s s' g).granted k = g.granted k ++ (g.waiting k).filter fun t =>
      !(decide (t.2 ∈ q' (.lock k))) && decide (Live s' t.2) := by
    change _ ++ _ = _
    congr 1
    refine List.filter_congr (fun t hw => ?_)
    rw [hleft t hw]
  have hl : (observe c s s' g).lost k = g.lost k ++ (g.waiting k).filter fun t =>
      !(decide (t.2 ∈ q' (.lock k))) && !(decide (Live s' t.2)) := by
    change _ ++ _ = _
    congr 1
    refine List.filter_congr (fun t hw => ?_)
    rw [hleft t hw]
  have ha : (observe c s s' g).arrived k = g.arrived k := by
    change _ ++ drawn s s' g k = _
    rw [hdrawn, List.append_nil]
  rw [hw, hg, hl, ha]
  exact hall

theorem length_filter_le_one {l : List Nat} (p : Nat → Bool) (h : l.length ≤ 1) :
    (l.filter p).length ≤ 1 :=
  (List.length_filter_le p l).trans h

/-- A mutex that is not handed over: some tasks may have ended. -/
theorem Held.rest (hh : Held s q g k) (ht : Tidy 1 s q) (ht' : Tidy 1 s' q') (hk : k < lockNum)
    (hm : s'.mlocks k = s.mlocks k) (hsub : (q' (.lock k)).Sublist (q (.lock k)))
    (hdead : ∀ j ∈ q (.lock k), j ∉ q' (.lock k) → ¬ Live s' j) (htaker : taker c s k = [])
    (hkeep : ∀ j ∈ g.holders k, Live s' j → (s'.pcb j).pid = (s.pcb j).pid) :
    Held s' q' (observe c s s' g) k := by
  have hserved : served s' (q (.lock k)) (q' (.lock k)) = [] := by
    unfold served
    rw [List.filter_eq_nil_iff]
    intro j hj
    by_cases hin : j ∈ q' (.lock k)
    · simp [hin]
    · simp [hdead j hj hin]
  have hhold := observe_holders (c := c) (g := g) ht ht' hk
  rw [hserved, htaker, List.append_nil, List.append_nil] at hhold
  have hmem : ∀ j ∈ (observe c s s' g).holders k, j ∈ g.holders k ∧ Live s' j := by
    intro j hj
    rw [hhold, List.mem_filter, Bool.and_eq_true, decide_eq_true_iff] at hj
    exact ⟨hj.1, hj.2.1⟩
  refine ⟨?_, ?_, ?_, ?_, ?_, ?_⟩
  · rw [hhold]
    exact length_filter_le_one _ hh.single
  · intro j hj
    exact ⟨(hh.live j (hmem j hj).1).1, (hmem j hj).2⟩
  · intro j hj
    rw [hm, hkeep j (hmem j hj).1 (hmem j hj).2]
    exact hh.owner j (hmem j hj).1
  · rw [hm]
    intro hl
    obtain ⟨hq, hnil⟩ := hh.unlocked hl
    rw [hq] at hsub
    refine ⟨List.eq_nil_of_sublist_nil hsub, ?_⟩
    rw [hhold, hnil]
    rfl
  · rw [hm]
    exact hh.unowned
  · exact observe_leave ht ht' hk hh.tickets hsub
      (fun j hj hnot => hdead j (List.mem_of_mem_tail hj) hnot)

/-- A mutex that is handed over: nobody keeps it, and the first waiter gets it
if alive. -/
theorem Held.hand (hh : Held s q g k) (ht : Tidy 1 s q) (ht' : Tidy 1 s' q') (hk : k < lockNum)
    (hm : s'.mlocks k = handed (fun j => (s'.pcb j).pid) (s.mlocks k) (q (.lock k)))
    (hsub : (q' (.lock k)).Sublist (q (.lock k)).tail)
    (hdead : ∀ j ∈ (q (.lock k)).tail, j ∉ q' (.lock k) → ¬ Live s' j)
    (htaker : taker c s k = [])
    (hgone : ∀ j ∈ g.holders k, Live s' j → releases c s k j = true)
    (hpid : ∀ j ∈ q (.lock k), (s'.pcb j).pid ≠ -1) :
    Held s' q' (observe c s s' g) k := by
  have hnone : ((g.holders k).filter fun j => decide (Live s' j) && !releases c s k j) = [] := by
    rw [List.filter_eq_nil_iff]
    intro j hj
    by_cases hl : Live s' j
    · simp [hl, hgone j hj hl]
    · simp [hl]
  have hhold := observe_holders (c := c) (g := g) ht ht' hk
  rw [hnone, htaker, List.nil_append, List.nil_append] at hhold
  have hleave := observe_leave (c := c) (g := g) ht ht' hk hh.tickets
    (hsub.trans (List.tail_sublist _)) hdead
  cases heq : q (.lock k) with
  | nil =>
      rw [heq] at hm hhold hsub
      have hq' : q' (.lock k) = [] := List.eq_nil_of_sublist_nil hsub
      refine ⟨?_, ?_, ?_, ?_, ?_, hleave⟩
      · rw [hhold]
        simp [served]
      · rw [hhold]
        simp [served]
      · rw [hhold]
        simp [served]
      · intro _
        exact ⟨hq', hhold⟩
      · rw [hm]
        intro _
        rfl
  | cons j rest =>
      rw [heq] at hm hhold hsub hdead
      have hjmem : j ∈ q (.lock k) := by
        rw [heq]
        exact List.mem_cons_self
      have hlocked : (s.mlocks k).locked = true := by
        by_contra hcon
        have hnil := (hh.unlocked (by simpa using hcon)).1
        rw [heq] at hnil
        cases hnil
      have hrest : served s' rest (q' (.lock k)) = [] := by
        unfold served
        rw [List.filter_eq_nil_iff]
        intro x hx
        by_cases hin : x ∈ q' (.lock k)
        · simp [hin]
        · simp [hdead x hx hin]
      have hmem : ∀ x ∈ (observe c s s' g).holders k, x = j ∧ Live s' x := by
        intro x hx
        rw [hhold] at hx
        unfold served at hx hrest
        rw [List.filter_cons] at hx
        split at hx
        · next hj =>
            rw [hrest, List.mem_singleton] at hx
            rw [Bool.and_eq_true, decide_eq_true_iff] at hj
            exact ⟨hx, hx ▸ hj.2⟩
        · rw [hrest] at hx
          cases hx
      refine ⟨?_, ?_, ?_, ?_, ?_, hleave⟩
      · rw [hhold]
        unfold served at hrest ⊢
        rw [List.filter_cons]
        split
        · rw [hrest]
          simp
        · rw [hrest]
          simp
      · intro x hx
        obtain ⟨hxj, hl⟩ := hmem x hx
        exact ⟨hxj ▸ ht.bound _ j hjmem, hl⟩
      · intro x hx
        rw [hm, (hmem x hx).1]
        rfl
      · rw [hm]
        intro hl
        change (s.mlocks k).locked = false at hl
        rw [hlocked] at hl
        cases hl
      · rw [hm]
        intro hown
        exact absurd hown (hpid j hjmem)

/-- Pids tell tasks apart. -/
structure Distinct (s : State) : Prop where
  inj : ∀ i j, i < numMaxTask → j < numMaxTask → 0 < (s.pcb i).pid →
    (s.pcb i).pid = (s.pcb j).pid → i = j
  lt : ∀ i, i < numMaxTask → (s.pcb i).pid < s.processId

/-- Pids stay distinct where tasks stay. -/
theorem SameTasks.distinct (ht : SameTasks s s') (hd : Distinct s) : Distinct s' := by
  refine ⟨?_, ?_⟩
  · intro i j hi hj hpos heq
    rw [ht.pid i] at hpos heq
    rw [ht.pid j] at heq
    exact hd.inj i j hi hj hpos heq
  · intro i hi
    rw [ht.pid i, ht.processId]
    exact hd.lt i hi

/-- All pids but one stay, and that one is new or void. -/
theorem Distinct.change {i : Nat} (hd : Distinct s)
    (hother : ∀ j, j ≠ i → (s'.pcb j).pid = (s.pcb j).pid)
    (hself : (s'.pcb i).pid = s.processId ∨ (s'.pcb i).pid ≤ 0)
    (hlt : (s'.pcb i).pid < s'.processId) (hproc : s.processId ≤ s'.processId) :
    Distinct s' := by
  refine ⟨?_, ?_⟩
  · intro a b ha hb hpos heq
    by_cases hai : a = i
    · by_cases hbi : b = i
      · exact hai.trans hbi.symm
      · exfalso
        have hblt := hd.lt b hb
        rw [hother b hbi] at heq
        rw [hai] at heq hpos
        omega
    · by_cases hbi : b = i
      · exfalso
        have halt := hd.lt a ha
        rw [hother a hai] at heq hpos
        rw [hbi] at heq
        omega
      · rw [hother a hai] at heq hpos
        rw [hother b hbi] at heq
        exact hd.inj a b ha hb hpos heq
  · intro j hj
    by_cases hji : j = i
    · rw [hji]
      exact hlt
    · rw [hother j hji]
      have := hd.lt j hj
      omega

/-- Pids stay distinct over every call but `do_thread_create`. -/
theorem LockStep.distinct (hl : LockStep s q s' q' c) (hd : Distinct s) (hp : Pids s)
    (hthread : c ≠ .threadCreate) : Distinct s' := by
  have hfresh := hp.fresh
  cases hl with
  | other htasks _ _ _ _ => exact htasks.distinct hd
  | @start _ i pid hst hpid =>
      obtain ⟨mask, hpcb⟩ := hst.pcb
      rcases hpid with ⟨_, hpid, hproc⟩ | ⟨hc, _⟩
      · have hself : (s'.pcb i).pid = s.processId := by
          rw [hpcb, Function.update_self]
          exact hpid
        refine hd.change (fun j hj => ?_) (Or.inl hself) (by omega) (by omega)
        rw [hpcb, Function.update_of_ne hj]
      · exact absurd hc hthread
  | init _ _ hs' _ =>
      subst hs'
      exact ⟨hd.inj, hd.lt⟩
  | take _ _ _ hs' _ =>
      subst hs'
      exact ⟨hd.inj, hd.lt⟩
  | wait _ _ _ htasks _ _ _ => exact htasks.distinct hd
  | release _ _ htasks _ _ _ => exact htasks.distinct hd
  | @exit i _ _ hends hpid _ _ =>
      have hsame : SameTasks s { s' with pcb := fun j => { s.pcb j with pid := (s'.pcb j).pid } } := by
        refine ⟨fun j => ?_, fun j => Iff.rfl, hends.processId⟩
        by_cases hj : j = i
        · rw [hj]
          exact hpid
        · exact hends.pid j hj
      have hd' := hsame.distinct hd
      exact ⟨hd'.inj, hd'.lt⟩
  | @kill i _ _ _ hkill =>
      have hself := hkill.pid_self
      have hproc := hkill.processId
      exact hd.change hkill.pid (Or.inr (by omega)) (by omega) (by omega)

/-- `do_mutex_lock_init` takes table entry `m`. -/
theorem Held.initStep {key : Int} {m : Nat} (hk' : Held s q g k) (hs : Settled 1 s q)
    (hs' : Settled 1 s' q') (hk : k < lockNum) (hfree : (s.mlocks m).owner = -1)
    (hset : s' = setLock m ⟨false, 0, key⟩ s) (hq : q' = q) :
    Held s' q' (observe (.lockInit key) s s' g) k := by
  have ht := hs.toTidy
  have ht' := hs'.toTidy
  have hnodead : ∀ {l : List Nat}, l = q (.lock k) → ∀ j ∈ q (.lock k), j ∉ l → ¬ Live s' j :=
    fun hl j hj hnot => absurd hj (hl ▸ hnot)
  subst hset
  subst hq
  by_cases hkm : k = m
  · subst hkm
    have hunl := hk'.unlocked (hk'.unowned hfree)
    have hhold : (observe (.lockInit key) s (setLock k ⟨false, 0, key⟩ s) g).holders k = [] := by
      rw [observe_holders ht ht' hk, hunl.1, hunl.2]
      rfl
    have hread : (setLock k ⟨false, 0, key⟩ s).mlocks k = ⟨false, 0, key⟩ :=
      Function.update_self _ _ _
    refine ⟨by rw [hhold]; simp, by rw [hhold]; simp, by rw [hhold]; simp, ?_, ?_, ?_⟩
    · intro _
      exact ⟨hunl.1, hhold⟩
    · rw [hread]
      intro hcon
      cases hcon
    · exact observe_leave ht ht' hk hk'.tickets (List.Sublist.refl _)
        (fun j hj hnot => absurd (List.mem_of_mem_tail hj) hnot)
  · exact hk'.rest ht ht' hk (Function.update_of_ne hkm _ _) (List.Sublist.refl _)
      (hnodead rfl) rfl (fun _ _ _ => rfl)

/-- A task takes mutex `m`. -/
theorem Held.takeStep {m now i : Nat} (hk' : Held s q g k) (hp : Pids s) (hs : Settled 1 s q)
    (hs' : Settled 1 s' q') (hk : k < lockNum) (hcur : s.coreRunning 0 = .task i)
    (hfree : (s.mlocks m).locked = false)
    (hset : s' = setLock m { s.mlocks m with locked := true, owner := (s.pcb i).pid } s)
    (hq : q' = q) :
    Held s' q' (observe (.acquire m now) s s' g) k := by
  have ht := hs.toTidy
  have ht' := hs'.toTidy
  have hnodead : ∀ {l : List Nat}, l = q (.lock k) → ∀ j ∈ q (.lock k), j ∉ l → ¬ Live s' j :=
    fun hl j hj hnot => absurd hj (hl ▸ hnot)
  subst hset
  subst hq
  by_cases hkm : k = m
  · subst hkm
    have hunl := hk'.unlocked hfree
    obtain ⟨hi, hrun, _⟩ := hs.current (by omega) hcur
    have htaker : taker (.acquire k now) s k = [i] := by
      unfold taker
      rw [hcur]
      exact if_pos ⟨rfl, hfree⟩
    have hhold := observe_holders (c := .acquire k now) (g := g) ht ht' hk
    rw [htaker, hunl.1, hunl.2] at hhold
    have hread : (setLock k { s.mlocks k with locked := true, owner := (s.pcb i).pid } s).mlocks k
        = { s.mlocks k with locked := true, owner := (s.pcb i).pid } :=
      Function.update_self _ _ _
    refine ⟨by rw [hhold]; simp [served], ?_, ?_, ?_, ?_, ?_⟩
    · intro j hj
      rw [hhold] at hj
      have hji : j = i := by simpa [served] using hj
      rw [hji]
      exact ⟨hi, live_of_running hrun⟩
    · intro j hj
      rw [hhold] at hj
      have hji : j = i := by simpa [served] using hj
      rw [hread, hji]
      rfl
    · rw [hread]
      intro hcon
      cases hcon
    · rw [hread]
      intro hcon
      have hpos := hp.live i hi (live_of_running hrun)
      change (s.pcb i).pid = -1 at hcon
      omega
    · exact observe_leave ht ht' hk hk'.tickets (List.Sublist.refl _)
        (fun j hj hnot => absurd (List.mem_of_mem_tail hj) hnot)
  · have htaker : taker (.acquire m now) s k = [] := by
      unfold taker
      simp only [hcur]
      rw [if_neg (fun hcon => hkm hcon.1.symm)]
    exact hk'.rest ht ht' hk (Function.update_of_ne hkm _ _) (List.Sublist.refl _)
      (hnodead rfl) htaker (fun _ _ _ => rfl)

/-- A task waits for mutex `m`, which is held. -/
theorem Held.waitStep {m now i : Nat} (hk' : Held s q g k) (hs : Settled 1 s q)
    (hs' : Settled 1 s' q') (hk : k < lockNum) (hcur : s.coreRunning 0 = .task i)
    (hheld : (s.mlocks m).locked = true) (htasks : SameTasks s s') (hml : s'.mlocks = s.mlocks)
    (hq : q' (.lock m) = q (.lock m) ++ [i])
    (hother : ∀ j, j ≠ m → q' (.lock j) = q (.lock j)) :
    Held s' q' (observe (.acquire m now) s s' g) k := by
  have ht := hs.toTidy
  have ht' := hs'.toTidy
  have hnodead : ∀ {l : List Nat}, l = q (.lock k) → ∀ j ∈ q (.lock k), j ∉ l → ¬ Live s' j :=
    fun hl j hj hnot => absurd hj (hl ▸ hnot)
  have htaker : taker (.acquire m now) s k = [] := by
    unfold taker
    simp only [hcur]
    rw [if_neg]
    intro hcon
    rw [← hcon.1, hheld] at hcon
    cases hcon.2
  by_cases hkm : k = m
  · subst hkm
    obtain ⟨hi, hrun, hfree⟩ := hs.current (by omega) hcur
    have hserved : served s' (q (.lock k)) (q' (.lock k)) = [] := by
      unfold served
      rw [List.filter_eq_nil_iff]
      intro j hj
      rw [hq]
      simp [hj]
    have hhold := observe_holders (c := .acquire k now) (g := g) ht ht' hk
    rw [hserved, htaker, List.append_nil, List.append_nil] at hhold
    have hmem : ∀ j ∈ (observe (.acquire k now) s s' g).holders k, j ∈ g.holders k := by
      intro j hj
      rw [hhold] at hj
      exact List.mem_of_mem_filter hj
    refine ⟨?_, ?_, ?_, ?_, ?_, ?_⟩
    · rw [hhold]
      exact length_filter_le_one _ hk'.single
    · intro j hj
      obtain ⟨hlt, hlive⟩ := hk'.live j (hmem j hj)
      exact ⟨hlt, (htasks.live j).mpr hlive⟩
    · intro j hj
      rw [hml, htasks.pid j]
      exact hk'.owner j (hmem j hj)
    · rw [hml, hheld]
      intro hcon
      cases hcon
    · rw [hml]
      exact hk'.unowned
    · have hdrawn : drawn s s' g k = [((g.arrived k).length, i)] := by
        unfold drawn
        rw [ht.queued_eq (h := .lock k) hk, ht'.queued_eq (h := .lock k) hk, hq,
          List.filter_append]
        have hnil : ((q (.lock k)).filter fun j => !(decide (j ∈ q (.lock k)))) = [] := by
          rw [List.filter_eq_nil_iff]
          intro j hj
          simp [hj]
        rw [hnil]
        simp [hfree]
      have hstay : ∀ t ∈ g.waiting k, left s s' k t.2 = false := by
        intro t hw
        have hmem : t.2 ∈ q (.lock k) := by
          rw [← hk'.tickets.queue]
          exact List.mem_map_of_mem hw
        rw [left_eq ht ht' hk hmem, hq]
        simp [hmem]
      have hnone : ∀ p : Nat → Bool,
          ((g.waiting k).filter fun t => left s s' k t.2 && p t.2) = [] := by
        intro p
        rw [List.filter_eq_nil_iff]
        intro t hw
        simp [hstay t hw]
      have hw : (observe (.acquire k now) s s' g).waiting k =
          g.waiting k ++ [((g.arrived k).length, i)] := by
        change (g.waiting k).filter _ ++ drawn s s' g k = _
        rw [hdrawn, List.filter_eq_self.mpr]
        intro t hw
        rw [hstay t hw]
        rfl
      have ha : (observe (.acquire k now) s s' g).arrived k =
          g.arrived k ++ [((g.arrived k).length, i)] := by
        change g.arrived k ++ drawn s s' g k = _
        rw [hdrawn]
      have hg : (observe (.acquire k now) s s' g).granted k = g.granted k := by
        change g.granted k ++ _ = _
        rw [hnone (fun j => decide (Live s' j)), List.append_nil]
      have hlo : (observe (.acquire k now) s s' g).lost k = g.lost k := by
        change g.lost k ++ _ = _
        rw [hnone (fun j => !(decide (Live s' j))), List.append_nil]
      rw [hw, ha, hg, hlo, hq]
      exact hk'.tickets.draw i
  · exact hk'.rest ht ht' hk (by rw [hml]) (by rw [hother k hkm]) (hnodead (hother k hkm))
      htaker (fun j _ _ => htasks.pid j)

/-- The holder releases mutex `m`, and the first task that waits for it takes it. -/
theorem Held.releaseStep {m i : Nat} (hk' : Held s q g k) (hp : Pids s) (hs : Settled 1 s q)
    (hs' : Settled 1 s' q') (hc : Disciplined (s, g) (.release m)) (hk : k < lockNum)
    (hcur : s.coreRunning 0 = .task i) (htasks : SameTasks s s')
    (hml : s'.mlocks = Function.update s.mlocks m
      (handed (fun j => (s.pcb j).pid) (s.mlocks m) (q (.lock m))))
    (hq : q' (.lock m) = (q (.lock m)).tail)
    (hother : ∀ j, j ≠ m → q' (.lock j) = q (.lock j)) :
    Held s' q' (observe (.release m) s s' g) k := by
  have ht := hs.toTidy
  have ht' := hs'.toTidy
  have hnodead : ∀ {l : List Nat}, l = q (.lock k) → ∀ j ∈ q (.lock k), j ∉ l → ¬ Live s' j :=
    fun hl j hj hnot => absurd hj (hl ▸ hnot)
  by_cases hkm : k = m
  · subst hkm
    refine hk'.hand ht ht' hk ?_ (by rw [hq]) ?_ rfl ?_ ?_
    · rw [hml, Function.update_self]
      congr 1
      funext j
      exact (htasks.pid j).symm
    · intro j hj hnot
      rw [hq] at hnot
      exact absurd hj hnot
    · -- the caller is the only holder
      intro j hj _
      have hi : i ∈ g.holders k := hc i hcur
      have hji : j = i := by
        obtain ⟨a, ha⟩ := List.length_eq_one_iff.mp
          (le_antisymm hk'.single (List.length_pos_of_mem hi))
        rw [ha, List.mem_singleton] at hi hj
        exact hj.trans hi.symm
      unfold releases
      simp [hji, hcur]
    · intro j hj hcon
      rw [htasks.pid j] at hcon
      have hpos := hp.live j (ht.bound _ j hj) (ht.live_of_mem hj)
      omega
  · exact hk'.rest ht ht' hk (by rw [hml, Function.update_of_ne hkm]) (by rw [hother k hkm])
      (hnodead (hother k hkm)) rfl (fun j _ _ => htasks.pid j)

/-- A task is killed: what it owned goes on to the next, and it leaves the queue it is in. -/
theorem Held.killStep {i now : Nat} {pid : Int} (hk' : Held s q g k) (hd : Distinct s) (hp : Pids s)
    (hs : Settled 1 s q) (hs' : Settled 1 s' q') (hk : k < lockNum) (hfind : findPid pid s = some i)
    (hkill : Killed i pid s q s' q') :
    Held s' q' (observe (.kill pid now) s s' g) k := by
  have ht := hs.toTidy
  have ht' := hs'.toTidy
  have hpid : ∀ j, Live s' j → (s'.pcb j).pid = (s.pcb j).pid := by
    intro j hlive
    have hji : j ≠ i := fun heq => (heq ▸ hlive).1 hkill.self
    exact hkill.pid j hji
  have hdead : ∀ {l : List Nat} {j : Nat}, j ∈ l → j ∉ l.erase i → ¬ Live s' j := by
    intro l j hj hnot hlive
    have hji : j ≠ i := fun heq => (heq ▸ hlive).1 hkill.self
    exact hnot ((List.mem_erase_of_ne hji).mpr hj)
  by_cases hown : (s.mlocks k).owner = pid
  · obtain ⟨hml, hq⟩ := hkill.owned k hk hown
    refine hk'.hand ht ht' hk hml ?_ ?_ rfl ?_ ?_
    · rw [hq]
      exact List.erase_sublist
    · intro j hj hnot
      rw [hq] at hnot
      exact hdead hj hnot
    · -- whoever held the mutex is the victim
      intro j hj hlive
      obtain ⟨hlt, hlj⟩ := hk'.live j hj
      have hpj := hk'.owner j hj
      obtain ⟨hi, hpi⟩ := findPid_lt hfind
      have hji : j = i := by
        refine hd.inj j i hlt hi (hp.live j hlt hlj) ?_
        rw [hpj, hown, hpi]
      exact absurd hkill.self (hji ▸ hlive).1
    · intro j hj hcon
      by_cases hji : j = i
      · rw [hji, hkill.pid_self] at hcon
        cases hcon
      · rw [hkill.pid j hji] at hcon
        have hpos := hp.live j (ht.bound _ j hj) (ht.live_of_mem hj)
        omega
  · obtain ⟨hml, hq⟩ := hkill.other k hk hown
    refine hk'.rest ht ht' hk hml ?_ ?_ rfl (fun j _ hlive => hpid j hlive)
    · rw [hq]
      exact List.erase_sublist
    · intro j hj hnot
      rw [hq] at hnot
      exact hdead hj hnot

/-- **One call** and mutex `k`. -/
theorem Held.step (hh : ∀ k, k < lockNum → Held s q g k) (hd : Distinct s) (hp : Pids s)
    (hs : Settled 1 s q) (hs' : Settled 1 s' q') (hc : Disciplined (s, g) c)
    (hl : LockStep s q s' q' c) (hk : k < lockNum) : Held s' q' (observe c s s' g) k := by
  have ht := hs.toTidy
  have ht' := hs'.toTidy
  have hk' := hh k hk
  have hnodead : ∀ {l : List Nat}, l = q (.lock k) → ∀ j ∈ q (.lock k), j ∉ l → ¬ Live s' j := by
    intro l hl j hj hnot
    rw [hl] at hnot
    exact absurd hj hnot
  cases hl with
  | other htasks hm hq hrel hacq =>
      have htaker : taker c s k = [] := by
        cases c with
        | acquire m now => exact absurd rfl (hacq m now)
        | _ => rfl
      exact hk'.rest ht ht' hk (by rw [hm]) (by rw [hq k]) (hnodead (hq k)) htaker
        (fun j _ _ => htasks.pid j)
  | @start _ i pid hst hpid =>
      have hq : q' (.lock k) = q (.lock k) := by
        rw [hst.queues]
        exact Function.update_of_ne (by simp) _ _
      have htaker : taker c s k = [] := by
        rcases hpid with hpid | hpid
        · rw [hpid.1]
          rfl
        · rw [hpid.1]
          rfl
      refine hk'.rest ht ht' hk (by rw [hst.mlocks]) (by rw [hq]) (hnodead hq) htaker ?_
      intro j hj _
      obtain ⟨mask, hpcb⟩ := hst.pcb
      have hji : j ≠ i := fun heq => hst.slot.2 (heq ▸ (hk'.live j hj).2)
      rw [hpcb, Function.update_of_ne hji]
  | @init key m hm hfree hset hq => exact hk'.initStep hs hs' hk hfree hset hq
  | @take m now i hm hcur hfree hset hq => exact hk'.takeStep hp hs hs' hk hcur hfree hset hq
  | @wait m now i hm hcur hheld htasks hml hq hother =>
      exact hk'.waitStep hs hs' hk hcur hheld htasks hml hq hother
  | @release m i hm hcur htasks hml hq hother =>
      exact hk'.releaseStep hp hs hs' hc hk hcur htasks hml hq hother
  | @exit i now hcur hends hpid hml hq =>
      refine hk'.rest ht ht' hk (by rw [hml]) (by rw [hq k]) (hnodead (hq k)) rfl ?_
      intro j _ hlive
      have hji : j ≠ i := fun heq => (heq ▸ hlive).1 hends.self
      exact hends.pid j hji
  | @kill i now pid hfind hkill => exact hk'.killStep hd hp hs hs' hk hfind hkill

end Held

/-- What is kept along a run. -/
def Orderly (p : State × History) : Prop :=
  ∃ q, Settled 1 p.1 q ∧ Pids p.1 ∧ Distinct p.1 ∧ ∀ k, k < lockNum → Held p.1 q p.2 k

/-- At the start no lock is held. -/
theorem initState_orderly : Orderly (initState, History.init) := by
  refine ⟨initQueues, initState_settled 1, initState_pids, ⟨?_, ?_⟩, ?_⟩
  · intro i j _ _ hpos heq
    have hread : ∀ m, m ≠ 0 → (initState.pcb m).pid = -1 := by
      intro m hm
      unfold initState
      simp only [if_neg hm]
    by_cases hi : i = 0
    · by_cases hj : j = 0
      · exact hi.trans hj.symm
      · rw [hread j hj] at heq
        omega
    · rw [hread i hi] at hpos
      omega
  · intro i _
    unfold initState
    simp only
    split <;> decide
  · intro k _
    refine ⟨by simp [History.init], ?_, ?_, ?_, ?_, ?_⟩
    · intro j hj
      cases hj
    · intro j hj
      cases hj
    · intro _
      exact ⟨rfl, rfl⟩
    · intro _
      rfl
    · refine ⟨rfl, rfl, List.nodup_nil, ?_, ?_⟩
      · intro t ht
        cases ht
      · intro t ht
        cases ht

/-- The step lemma of the history. -/
theorem stepSeen_orderly (p : State × History) (c : Call) (p' : State × History) (ho : Orderly p)
    (hc : Disciplined p c) (hstep : stepSeen c p = .ok p') : Orderly p' := by
  obtain ⟨q, hs, hp, hd, hh⟩ := ho
  unfold stepSeen at hstep
  cases hstep₁ : step 0 c p.1 with
  | error e =>
      rw [hstep₁] at hstep
      cases hstep
  | ok s' =>
      rw [hstep₁] at hstep
      cases hstep
      obtain ⟨q', hs', hp', hl⟩ := step_lockStep hs hp hstep₁
      have hthread : c ≠ .threadCreate := by
        intro heq
        rw [heq] at hc
        exact hc
      exact ⟨q', hs', hp', hl.distinct hd hp hthread,
        fun k hk => Held.step hh hd hp hs hs' hc hl hk⟩

/-- **Mutual exclusion.**  After every run of disciplined tasks, at every mutex
at most one task holds it, the holder is the owner, an unlocked mutex has
neither holder nor waiters, and tickets are served in order. -/
theorem mutex_exclusion (cs : List Call) (s : State) (g : History)
    (hcs : AllSteps stepSeen Disciplined cs (initState, History.init))
    (hrun : run stepSeen cs (initState, History.init) = .ok (s, g)) (k : Nat) (hk : k < lockNum) :
    Exclusion s g k := by
  obtain ⟨q, hs, _, _, hh⟩ :=
    run_invariant stepSeen_orderly cs _ _ initState_orderly hcs hrun
  have hk' := hh k hk
  have hq : queued (.lock k) s = q (.lock k) := hs.toTidy.queued_eq (h := .lock k) hk
  refine ⟨hk'.single, hk'.owner, ?_, ?_, hk'.tickets.order⟩
  · rw [hq]
    exact hk'.unlocked
  · rw [hq]
    exact hk'.tickets.queue

instance Disciplined.decidable (p : State × History) : ∀ c, Decidable (Disciplined p c)
  | .threadCreate => instDecidableFalse
  | .release k =>
    (inferInstance : Decidable (∀ i, p.1.coreRunning 0 = .task i → i ∈ p.2.holders k))
  | .exec | .exit _ | .kill _ _ | .waitpid _ _ | .sleep _ _ _ | .schedule _ | .tick _ _
  | .lockInit _ | .acquire _ _ | .barrierInit _ _ | .barrierWait _ _ | .barrierDestroy _ => instDecidableTrue

/-- The shell takes a mutex; two tasks queue up for it, the first of them is
killed, and the release serves the second. -/
theorem mutex_exclusion_queue :
    ∃ s g, run stepSeen [.tick 0 0, .exec, .exec, .acquire 0 0, .schedule 0, .acquire 0 0,
        .acquire 0 0, .kill 2 1, .release 0, .schedule 1] (initState, History.init) = .ok (s, g) ∧
      Exclusion s g 0 ∧ g.holders 0 = [2] ∧ g.granted 0 = [(1, 2)] := by
  obtain ⟨⟨s, g⟩, hrun, hhold, hgrant⟩ := exists_of_returns
    (P := fun p : State × History => p.2.holders 0 = [2] ∧ p.2.granted 0 = [(1, 2)])
    (x := run stepSeen [.tick 0 0, .exec, .exec, .acquire 0 0, .schedule 0, .acquire 0 0,
        .acquire 0 0, .kill 2 1, .release 0, .schedule 1] (initState, History.init))
    (by decide +kernel)
  exact ⟨s, g, hrun, mutex_exclusion _ s g (by decide +kernel) hrun 0 (by decide), hhold, hgrant⟩

end Sched
