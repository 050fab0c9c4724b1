import OslabRiscv.Sched.Placement

/-!
# The scheduler and the loops over the queues

`do_scheduler` returns from every tidy state in which the other cores are busy,
and leaves a settled one.  The loops that empty a wait list, a barrier or a
mutex queue end after as many rounds as the queue has entries, since every PCB
in such a queue is blocked.
-/

namespace Sched

open IntrusiveList

variable {n : Nat} {s : State} {q : Node → List Nat} {h : Node} {i : Nat}

/-! ## Sleepers -/

/-- The loop over the sleepers, by induction on the rounds. -/
theorem checkLoop_spec (now : Nat) :
    ∀ (fuel : Nat) (kept rest : List Nat) (s : State) (q : Node → List Nat), Tidy n s q →
      q .sleep = kept ++ rest → rest.length < fuel →
      ∃ s' q', checkLoop now fuel (some (firstNode .sleep rest)) s = .ok s' ∧ Tidy n s' q' ∧
        Wakes [.ready, .sleep] s q s' q' := by
  intro fuel
  induction fuel with
  | zero =>
      intro kept rest s q _ _ hfuel
      omega
  | succ fuel ih =>
      intro kept rest s q ht hsplit hfuel
      cases rest with
      | nil => exact ⟨s, q, rfl, ht, Wakes.refl⟩
      | cons i rest =>
          have hi : i ∈ q .sleep := by
            rw [hsplit]
            exact List.mem_append_right _ List.mem_cons_self
          have hlen : rest.length < fuel := by
            rw [List.length_cons] at hfuel
            omega
          have hnext := ht.queues.next_task hsplit
          change ∃ s' q', (if (s.pcb i).wakeupTime ≤ now then
              addQueue .ready i (delQueue i (setStatus i .ready s)) >>= fun s =>
                checkLoop now fuel _ s
            else checkLoop now fuel _ s) = .ok s' ∧ _
          rw [hnext]
          by_cases hw : (s.pcb i).wakeupTime ≤ now
          · rw [if_pos hw]
            obtain ⟨l, hadd, ht₁⟩ := ht.wake hi (by simp)
            have hsplit₁ : woken i q .sleep = kept ++ rest := by
              have hnd : (kept ++ i :: rest).Nodup := hsplit ▸ ht.queues.nodup
              rw [woken_of_ne (by simp), hsplit]
              have hnot : i ∉ kept := fun hmem =>
                (List.nodup_append.mp hnd).2.2 i hmem i List.mem_cons_self rfl
              rw [List.erase_append_right _ hnot, List.erase_cons_head]
            obtain ⟨s', q', hrun, ht', hwk⟩ := ih kept rest _ _ ht₁ hsplit₁ hlen
            refine ⟨s', q', ?_, ht', (ht.wake_wakes hi (by simp) l).trans hwk⟩
            have hadd' : addQueue .ready i (delQueue i (setStatus i .ready s)) =
                .ok { setStatus i .ready s with links := l } := hadd
            rw [hadd']
            exact hrun
          · rw [if_neg hw]
            rw [List.append_cons] at hsplit
            exact ih _ rest s q ht hsplit hlen

/-- `check_sleeping` wakes tasks, and nothing else. -/
theorem checkSleeping_spec (ht : Tidy n s q) (now : Nat) :
    ∃ s' q', checkSleeping now s = .ok s' ∧ Tidy n s' q' ∧ Wakes [.ready, .sleep] s q s' q' := by
  unfold checkSleeping
  rw [ht.queues.next_head (h := .sleep) trivial]
  exact checkLoop_spec now rounds [] (q .sleep) s q ht rfl ht.length_lt

/-! ## Choosing a task -/

/-- The loop over the ready queue picks one of its tasks or none, by induction on the rest. -/
theorem pickLoop_spec (cpu : Nat) (ht : Tidy n s q) :
    ∀ (fuel : Nat) (passed rest : List Nat), q .ready = passed ++ rest → rest.length < fuel →
      (∃ i, i ∈ q .ready ∧
        pickLoop cpu fuel (some (firstNode .ready rest)) s = .ok (some i, delQueue i s)) ∨
      pickLoop cpu fuel (some (firstNode .ready rest)) s = .ok (none, s) := by
  intro fuel
  induction fuel with
  | zero =>
      intro passed rest _ hfuel
      omega
  | succ fuel ih =>
      intro passed rest hsplit hfuel
      cases rest with
      | nil => exact Or.inr rfl
      | cons i rest =>
          have hi : i ∈ q .ready := by
            rw [hsplit]
            exact List.mem_append_right _ List.mem_cons_self
          have hunfold : pickLoop cpu (fuel + 1) (some (firstNode .ready (i :: rest))) s =
              if (s.pcb i).mask.testBit cpu then .ok (some i, delQueue i s)
              else pickLoop cpu fuel (s.links.next (.task i)) s := rfl
          rw [hunfold]
          by_cases hm : (s.pcb i).mask.testBit cpu
          · rw [if_pos hm]
            exact Or.inl ⟨i, hi, rfl⟩
          · rw [if_neg hm, ht.queues.next_task hsplit]
            rw [List.append_cons] at hsplit
            refine ih _ rest hsplit ?_
            rw [List.length_cons] at hfuel
            omega

/-- The core has nothing marked running any more, and takes what it is given. -/
theorem Tidy.dispatch {cpu : Nat} (ht : Tidy n s q) (hcpu : cpu < n)
    (hb : Busy (fun c => c < n ∧ c ≠ cpu) s)
    (hlast : ∀ j, s.coreRunning cpu = .task j → (s.pcb j).status ≠ .running) (w : Who)
    (hw : ∀ i, w = .task i → i < numMaxTask ∧ (s.pcb i).status ≠ .running) :
    Tidy n { s with coreRunning := Function.update s.coreRunning cpu w } q := by
  have hother : ∀ c i, c < n → w = .task i → Function.update s.coreRunning cpu w c = .task i →
      c = cpu := by
    intro c i hc hwi hci
    by_contra hne
    rw [Function.update_of_ne hne] at hci
    exact (hw i hwi).2 (hb c i ⟨hc, hne⟩ hci)
  refine ht.recore ?_ ?_ ?_
  · intro j hst hon
    obtain ⟨c, hc, hcj⟩ := hon
    refine ⟨c, hc, ?_⟩
    rw [Function.update_of_ne]
    · exact hcj
    · intro heq
      exact hlast j (heq ▸ hcj) hst
  · intro c j hc hcj
    by_cases hcc : c = cpu
    · subst hcc
      rw [Function.update_self] at hcj
      exact (hw j hcj).1
    · rw [Function.update_of_ne hcc] at hcj
      exact ht.core c j hc hcj
  · intro c d j hc hd hcj hdj
    by_cases hcc : c = cpu
    · rw [hcc, Function.update_self] at hcj
      exact hcc.trans (hother d j hd hcj hdj).symm
    · by_cases hdd : d = cpu
      · rw [hdd, Function.update_self] at hdj
        exact (hother c j hc hdj hcj).trans hdd.symm
      · rw [Function.update_of_ne hcc] at hcj
        rw [Function.update_of_ne hdd] at hdj
        exact ht.apart c d j hc hd hcj hdj

/-- With nothing to run the core runs its idle PCB. -/
theorem dispatch_none {cpu : Nat} (ht : Tidy n s q) (hcpu : cpu < n)
    (hb : Busy (fun c => c < n ∧ c ≠ cpu) s)
    (hlast : ∀ j, s.coreRunning cpu = .task j → (s.pcb j).status ≠ .running) :
    Settled n (dispatch cpu none s) q := by
  refine ⟨ht.dispatch hcpu hb hlast .idle (fun i hi => by cases hi), ?_⟩
  intro c j hc hcj
  change Function.update s.coreRunning cpu .idle c = _ at hcj
  by_cases hcc : c = cpu
  · rw [hcc, Function.update_self] at hcj
    cases hcj
  · rw [Function.update_of_ne hcc] at hcj
    exact hb c j ⟨hc, hcc⟩ hcj

/-- The task that was picked leaves the ready queue and runs. -/
theorem dispatch_some {cpu : Nat} (ht : Tidy n s q) (hcpu : cpu < n)
    (hb : Busy (fun c => c < n ∧ c ≠ cpu) s)
    (hlast : ∀ j, s.coreRunning cpu = .task j → (s.pcb j).status ≠ .running)
    (hi : i ∈ q .ready) :
    Settled n (dispatch cpu (some i) (delQueue i s)) (fun b => (q b).erase i) ∧
      Quiet [.ready, .sleep] s q (dispatch cpu (some i) (delQueue i s))
        (fun b => (q b).erase i) := by
  have hst := ht.status_of_mem hi
  rw [if_pos rfl] at hst
  have hbound := ht.bound _ i hi
  have ht₁ := ht.dispatch hcpu hb hlast (.task i) (by
    intro j hj
    cases hj
    exact ⟨hbound, by rw [hst]; simp⟩)
  have hq₁ : Queues (dispatch cpu (some i) (delQueue i s)) (fun b => (q b).erase i) :=
    ht.queues.del_any.congr rfl fun j _ =>
      setStatus_available (by simp) (ht.live_of_mem hi).2 j
  have hread : ∀ j, ((dispatch cpu (some i) (delQueue i s)).pcb j) =
      (setStatus i .running s).pcb j := fun _ => rfl
  refine ⟨⟨ht₁.move hq₁ hbound ?_ (fun b j hj => List.mem_erase_of_ne hj) rfl ?_ ?_, ?_⟩, ?_⟩
  · intro j hj
    rw [hread, setStatus_pcb_of_ne hj]
  · intro j _ hmem
    exact absurd hmem (ht.queues.not_mem_erase _)
  · unfold Placed
    rw [hread, setStatus_pcb_self]
    refine ⟨⟨cpu, hcpu, ?_⟩, fun b => ht.queues.not_mem_erase b⟩
    exact Function.update_self _ _ _
  · intro c j hc hcj
    change Function.update s.coreRunning cpu (.task i) c = _ at hcj
    rw [hread]
    by_cases hcc : c = cpu
    · rw [hcc, Function.update_self] at hcj
      cases hcj
      exact setStatus_pcb_self i .running
    · rw [Function.update_of_ne hcc] at hcj
      have hrun := hb c j ⟨hc, hcc⟩ hcj
      have hji : j ≠ i := by
        intro heq
        rw [heq, hst] at hrun
        cases hrun
      rw [setStatus_pcb_of_ne hji]
      exact hrun
  · have hquiet : Quiet [.ready, .sleep] s q
        { setStatus i .running s with links := listDel (.task i) s.links }
        (fun b => (q b).erase i) := by
      refine quiet_setStatus (ht.live_of_mem hi) ⟨by simp, by simp⟩ ?_
      intro b hb'
      rw [List.mem_cons, not_or] at hb'
      exact List.erase_of_not_mem (fun hmem => hb'.1 (ht.queues.unique hmem hi))
    exact ⟨hquiet.queues, hquiet.pid, hquiet.status, rfl, rfl, rfl⟩

/-- The last task of the core is put back, so nothing there is marked running
any more. -/
theorem requeue_spec {cpu : Nat} (ht : Tidy n s q) (hcpu : cpu < n)
    (hb : Busy (fun c => c < n ∧ c ≠ cpu) s)
    (hpid : ∀ j, s.coreRunning cpu = .task j → (s.pcb j).status = .running →
      (s.pcb j).pid ≠ 0) :
    ∃ s' q', requeue (s.coreRunning cpu) s = .ok s' ∧ Tidy n s' q' ∧
      Quiet [.ready, .sleep] s q s' q' ∧ Busy (fun c => c < n ∧ c ≠ cpu) s' ∧
      ∀ j, s'.coreRunning cpu = .task j → (s'.pcb j).status ≠ .running := by
  cases hlast : s.coreRunning cpu with
  | idle =>
      refine ⟨s, q, rfl, ht, Quiet.refl, hb, fun j hj => ?_⟩
      rw [hlast] at hj
      cases hj
  | task i =>
      have hi : i < numMaxTask := ht.core cpu i hcpu hlast
      by_cases hrun : (s.pcb i).status = .running
      · have hlive : Live s i := ⟨by rw [hrun]; simp, by rw [hrun]; simp⟩
        have hq : Queues (setStatus i .ready s) q :=
          ht.queues.congr rfl fun j _ => setStatus_available (by simp) hlive.2 j
        obtain ⟨l, hadd, ht'⟩ := ht.enqueue (h := .ready) hq hi (ht.running hi hrun).2
          (fun j hj => by rw [setStatus_pcb_of_ne hj]) rfl trivial
          (by rw [setStatus_pcb_self, if_pos rfl]) (fun j hj => by cases hj)
        refine ⟨_, _, (if_pos ⟨hrun, hpid i hlast hrun⟩).trans hadd, ht',
          quiet_setStatus hlive ⟨by simp, by simp⟩ ?_, ?_, ?_⟩
        · intro b hb'
          rw [List.mem_cons, not_or] at hb'
          exact Function.update_of_ne hb'.1 _ _
        · intro c j hc hcj
          have hcj' : s.coreRunning c = .task j := hcj
          have hji : j ≠ i := by
            intro heq
            rw [heq] at hcj'
            exact hc.2 (ht.apart c cpu i hc.1 hcpu hcj' hlast)
          change ((setStatus i .ready s).pcb j).status = _
          rw [setStatus_pcb_of_ne hji]
          exact hb c j hc hcj'
        · intro j hj
          have hj' : s.coreRunning cpu = .task j := hj
          rw [hlast] at hj'
          cases hj'
          change ((setStatus i .ready s).pcb i).status ≠ _
          rw [setStatus_pcb_self]
          simp
      · refine ⟨s, q, if_neg (fun hcon => hrun hcon.1), ht, Quiet.refl, hb, fun j hj => ?_⟩
        rw [hlast] at hj
        cases hj
        exact hrun

/-- **Scheduling.**  From a tidy state whose other cores are busy the scheduler
returns and the state is settled.  A task marked running must not have the pid
of the idle PCB, or it would be lost. -/
theorem doScheduler_spec {cpu : Nat} (ht : Tidy n s q) (hcpu : cpu < n)
    (hb : Busy (fun c => c < n ∧ c ≠ cpu) s)
    (hpid : ∀ j, s.coreRunning cpu = .task j → (s.pcb j).status = .running → (s.pcb j).pid ≠ 0)
    (now : Nat) :
    ∃ s' q', doScheduler cpu now s = .ok s' ∧ Settled n s' q' ∧
      Quiet [.ready, .sleep] s q s' q' := by
  obtain ⟨s₁, q₁, hcheck, ht₁, hw₁⟩ := checkSleeping_spec ht now
  have hb₁ : Busy (fun c => c < n ∧ c ≠ cpu) s₁ :=
    hb.congr (fun j hj => (hw₁.running j).mpr hj) hw₁.core
  have hpid₁ : ∀ j, s₁.coreRunning cpu = .task j → (s₁.pcb j).status = .running →
      (s₁.pcb j).pid ≠ 0 := by
    intro j hj hst
    rw [hw₁.core] at hj
    rw [hw₁.pid j]
    exact hpid j hj ((hw₁.running j).mp hst)
  obtain ⟨s₂, q₂, hreq, ht₂, hw₂, hb₂, hlast⟩ := requeue_spec ht₁ hcpu hb₁ hpid₁
  rw [hw₁.core] at hreq
  have hquiet := hw₁.toQuiet.trans hw₂
  have hrun : doScheduler cpu now s = if listIsEmpty .ready s₂.links then .ok (dispatch cpu none s₂)
      else pickLoop cpu rounds (s₂.links.next .ready) s₂ >>= fun p =>
        .ok (dispatch cpu p.1 p.2) := by
    unfold doScheduler
    rw [hcheck]
    change requeue (s.coreRunning cpu) s₁ >>= _ = _
    rw [hreq]
    rfl
  rw [hrun]
  have hnone : Quiet [.ready, .sleep] s₂ q₂ (dispatch cpu none s₂) q₂ :=
    ⟨fun _ _ => rfl, fun _ => rfl, fun _ _ => rfl, rfl, rfl, rfl⟩
  by_cases hempty : listIsEmpty .ready s₂.links
  · rw [if_pos hempty]
    exact ⟨_, q₂, rfl, dispatch_none ht₂ hcpu hb₂ hlast, hquiet.trans hnone⟩
  · rw [if_neg hempty, ht₂.queues.next_head (h := .ready) trivial]
    rcases pickLoop_spec cpu ht₂ rounds [] (q₂ .ready) rfl ht₂.length_lt with
      ⟨i, hi, hpick⟩ | hpick
    · rw [hpick]
      have hsome := dispatch_some ht₂ hcpu hb₂ hlast hi
      exact ⟨_, _, rfl, hsome.1, hquiet.trans hsome.2⟩
    · rw [hpick]
      exact ⟨_, q₂, rfl, dispatch_none ht₂ hcpu hb₂ hlast, hquiet.trans hnone⟩

/-! ## Emptying a queue -/

/-- What a loop that wakes the PCBs of `h` one by one has done when it ends. -/
structure Emptied (n : Nat) (h : Node) (s : State) (q : Node → List Nat) (s' : State)
    (q' : Node → List Nat) : Prop where
  tidy : Tidy n s' q'
  wakes : Wakes [.ready, h] s q s' q'
  empty : q' h = []

/-- The loop over the waiters of a task, by induction on their number. -/
theorem drainLoop_spec {side : Links Node → Node → Option Node} (hi : i < numMaxTask)
    (hside : ∀ s q, Queues s q → IsHead s (.wait i) → q (.wait i) ≠ [] →
      ∃ j ∈ q (.wait i), side s.links (.wait i) = some (.task j)) :
    ∀ (fuel : Nat) (s : State) (q : Node → List Nat), Tidy n s q →
      (s.pcb i).status ≠ .available → (q (.wait i)).length < fuel →
      ∃ s' q', drainLoop side i fuel s = .ok s' ∧ Emptied n (.wait i) s q s' q' := by
  intro fuel
  induction fuel with
  | zero =>
      intro s q _ _ hfuel
      omega
  | succ fuel ih =>
      intro s q ht hav hfuel
      have hh : IsHead s (.wait i) := ⟨hi, hav⟩
      unfold drainLoop
      by_cases hempty : listIsEmpty (.wait i) s.links
      · rw [if_pos hempty]
        exact ⟨s, q, rfl, ht, Wakes.refl, (ht.queues.listIsEmpty hh).mp hempty⟩
      · rw [if_neg hempty]
        have hne : q (.wait i) ≠ [] := fun heq => hempty ((ht.queues.listIsEmpty hh).mpr heq)
        obtain ⟨j, hj, hsj⟩ := hside s q ht.queues hh hne
        rw [hsj]
        -- a waiter is blocked, so the guard of the loop holds
        have hst : (s.pcb j).status ≠ .exited := (ht.live_of_mem hj).1
        simp only [if_pos hst]
        obtain ⟨k, rest, hk⟩ := List.exists_cons_of_ne_nil hne
        obtain ⟨s₁, hub, ht₁, hw₁, hrest⟩ := ht.doUnblock hk (by simp)
        have hav₁ : (s₁.pcb i).status ≠ .available := fun heq =>
          hav ((hw₁.status i (Or.inr (Or.inr (Or.inr heq)))).symm.trans heq)
        have hlen : (woken k q (.wait i)).length < fuel := by
          rw [hrest]
          rw [hk, List.length_cons] at hfuel
          omega
        obtain ⟨s', q', hrun, ht', hw', hnil⟩ := ih s₁ _ ht₁ hav₁ hlen
        refine ⟨s', q', ?_, ht', hw₁.trans hw', hnil⟩
        rw [hub]
        exact hrun

/-- The wait list is read at its front by `do_kill` and at its back by `do_exit`. -/
theorem drainLoop_next (ht : Tidy n s q) (hi : i < numMaxTask)
    (hav : (s.pcb i).status ≠ .available) :
    ∃ s' q', drainLoop Links.next i rounds s = .ok s' ∧ Emptied n (.wait i) s q s' q' := by
  refine drainLoop_spec hi ?_ rounds s q ht hav ht.length_lt
  intro s q hq hh hne
  obtain ⟨j, rest, hj⟩ := List.exists_cons_of_ne_nil hne
  refine ⟨j, hj ▸ List.mem_cons_self, ?_⟩
  rw [hq.next_head hh, hj]
  rfl

theorem drainLoop_prev (ht : Tidy n s q) (hi : i < numMaxTask)
    (hav : (s.pcb i).status ≠ .available) :
    ∃ s' q', drainLoop Links.prev i rounds s = .ok s' ∧ Emptied n (.wait i) s q s' q' :=
  drainLoop_spec hi (fun _ _ hq hh hne => hq.prev_head hh hne) rounds s q ht hav ht.length_lt

/-- The last task to arrive at a barrier wakes all others and counts them. -/
theorem barrierLoop_spec {k : Nat} (hk : k < barrierNum) :
    ∀ (fuel : Nat) (s : State) (q : Node → List Nat), Tidy n s q →
      (q (.barrier k)).length < fuel →
      ∃ s' q', barrierLoop k fuel s = .ok s' ∧
        Emptied n (.barrier k) s q { s' with barriers := s.barriers } q' ∧
        s'.barriers = Function.update s.barriers k
          ⟨(s.barriers k).key, (s.barriers k).num + (q (.barrier k)).length⟩ := by
  intro fuel
  induction fuel with
  | zero =>
      intro s q _ hfuel
      omega
  | succ fuel ih =>
      intro s q ht hfuel
      have hh : IsHead s (.barrier k) := hk
      unfold barrierLoop
      by_cases hempty : listIsEmpty (.barrier k) s.links
      · have hnil := (ht.queues.listIsEmpty hh).mp hempty
        rw [if_pos hempty]
        refine ⟨s, q, rfl, ⟨ht, Wakes.refl, hnil⟩, ?_⟩
        rw [hnil, List.length_nil]
        simp
      · rw [if_neg hempty]
        have hne : q (.barrier k) ≠ [] := fun heq => hempty ((ht.queues.listIsEmpty hh).mpr heq)
        obtain ⟨j, rest, hj⟩ := List.exists_cons_of_ne_nil hne
        obtain ⟨s₁, hub, ht₁, hw₁, hrest⟩ := ht.doUnblock hj (by simp)
        have hlen : (woken j q (.barrier k)).length < fuel := by
          rw [hrest]
          rw [hj, List.length_cons] at hfuel
          omega
        obtain ⟨s', q', hrun, ⟨ht', hw', hnil⟩, hbar⟩ :=
          ih (setBarrier k { s₁.barriers k with num := (s₁.barriers k).num + 1 } s₁) _
            (ht₁.congr rfl (fun _ => rfl) rfl) hlen
        refine ⟨s', q', ?_, ⟨ht'.congr rfl (fun _ => rfl) rfl, ?_, hnil⟩, ?_⟩
        · rw [hub]
          exact hrun
        · have hw₂ : Wakes [.ready, .barrier k] s₁ (woken j q)
              { s' with barriers := s.barriers } q' :=
            ⟨⟨hw'.queues, hw'.pid, hw'.status, hw'.processId, hw'.mlocks, hw₁.barriers.symm⟩,
              hw'.core, hw'.running⟩
          exact hw₁.trans hw₂
        · rw [hbar, hrest, hj, List.length_cons]
          simp only [setBarrier, Function.update_self, hw₁.barriers, Function.update_idem]
          congr 2
          push_cast
          ring

end Sched
