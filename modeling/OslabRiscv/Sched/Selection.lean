import OslabRiscv.Sched.Consistency

/-!
# What the scheduler selects

`do_scheduler` lines up the ready tasks, behind them the sleepers whose time has
come and last the task of the core, and takes the first of them that may run on
the core.  The search ends at the head of the queue: the loop compares with the
address of its field `next`, which is the first one.
-/

namespace Sched

open IntrusiveList Outcome

/-- The sleeper is to be woken. -/
def isDue (now : Nat) (s : State) (i : Nat) : Bool := (s.pcb i).wakeupTime ≤ now

/-- The task of the core, if it may go on. -/
def runnable (cpu : Nat) (s : State) : List Nat :=
  match s.coreRunning cpu with
  | .task i => if (s.pcb i).status = .running then [i] else []
  | .idle => []

/-- The tasks among which the scheduler chooses. -/
def lineup (cpu now : Nat) (s : State) (q : Node → List Nat) : List Nat :=
  q .ready ++ (q .sleep).filter (isDue now s) ++ runnable cpu s

/-- The first task that may run on the core. -/
def chosen (cpu now : Nat) (s : State) (q : Node → List Nat) : Option Nat :=
  (lineup cpu now s q).find? fun i => (s.pcb i).mask.testBit cpu

/-- What the core runs then. -/
def seated : Option Nat → Who
  | some i => .task i
  | none => .idle

/-- What `do_scheduler` does to the queues, the core and the process table. -/
structure Selects (cpu now : Nat) (s : State) (q : Node → List Nat) (s' : State)
    (q' : Node → List Nat) : Prop where
  queues : Queues s' q'
  ready : q' .ready =
    match chosen cpu now s q with
    | some i => (lineup cpu now s q).erase i
    | none => lineup cpu now s q
  sleep : q' .sleep = (q .sleep).filter fun i => !isDue now s i
  other : ∀ h, h ≠ .ready → h ≠ .sleep → q' h = q h
  core : s'.coreRunning = Function.update s.coreRunning cpu (seated (chosen cpu now s q))
  pcb : ∀ i, s'.pcb i = { s.pcb i with
    status := if chosen cpu now s q = some i then .running
      else if i ∈ lineup cpu now s q then .ready else (s.pcb i).status }
  /-- No task is lost or doubled. -/
  conserves : (runnable cpu s ++ q .ready ++ q .sleep).Perm
    (runnable cpu s' ++ q' .ready ++ q' .sleep)

section

variable {n cpu now : Nat} {s s₁ s₂ : State} {q : Node → List Nat} {l l₁ l₂ : List Nat}

/-- The tasks of `l` were made ready. -/
structure Readied (l : List Nat) (s s' : State) : Prop where
  pcb : ∀ j, s'.pcb j = { s.pcb j with status := if j ∈ l then .ready else (s.pcb j).status }
  core : s'.coreRunning = s.coreRunning

theorem Readied.nil : Readied [] s s := ⟨fun _ => rfl, rfl⟩

theorem Readied.append (h₁ : Readied l₁ s s₁) (h₂ : Readied l₂ s₁ s₂) :
    Readied (l₁ ++ l₂) s s₂ := by
  refine ⟨fun j => ?_, h₂.core.trans h₁.core⟩
  rw [h₂.pcb, h₁.pcb]
  by_cases h : j ∈ l₂
  · rw [if_pos h, if_pos (List.mem_append_right _ h)]
  · simp only [List.mem_append, h, if_false, or_false]

theorem readied_setStatus (i : Nat) (l : Links Node) :
    Readied [i] s { setStatus i .ready s with links := l } := by
  refine ⟨fun j => ?_, rfl⟩
  by_cases hj : j = i
  · subst hj
    rw [if_pos List.mem_cons_self]
    exact Function.update_self _ _ _
  · rw [if_neg (by simpa using hj)]
    exact Function.update_of_ne hj _ _

/-! ## The loop over the sleepers -/

/-- The loop over the sleepers wakes those whose time has come, in their order, by induction on the
rounds. -/
theorem checkLoop_exact (now : Nat) :
    ∀ (fuel : Nat) (kept rest : List Nat) (s : State) (q : Node → List Nat), Tidy n s q →
      q .sleep = kept ++ rest → rest.length < fuel →
      ∃ s' q', checkLoop now fuel (some (firstNode .sleep rest)) s = .ok s' ∧ Tidy n s' q' ∧
        q' .ready = q .ready ++ rest.filter (isDue now s) ∧
        q' .sleep = kept ++ rest.filter (fun i => !isDue now s i) ∧
        (∀ h, h ≠ .ready → h ≠ .sleep → q' h = q h) ∧
        Readied (rest.filter (isDue now s)) s s' := by
  intro fuel
  induction fuel with
  | zero =>
      intro kept rest s q _ _ hfuel
      omega
  | succ fuel ih =>
      intro kept rest s q ht hsplit hfuel
      cases rest with
      | nil => exact ⟨s, q, rfl, ht, by simp, by simpa using hsplit, fun _ _ _ => rfl, .nil⟩
      | cons i rest =>
          have hi : i ∈ q .sleep := by
            rw [hsplit]
            exact List.mem_append_right _ List.mem_cons_self
          have hlen : rest.length < fuel := by
            rw [List.length_cons] at hfuel
            omega
          have hnd : (kept ++ i :: rest).Nodup := hsplit ▸ ht.queues.nodup
          have hnext := ht.queues.next_task hsplit
          change ∃ s' q', (if (s.pcb i).wakeupTime ≤ now then
              addQueue .ready i (delQueue i (setStatus i .ready s)) >>= fun s =>
                checkLoop now fuel _ s
            else checkLoop now fuel _ s) = .ok s' ∧ _
          rw [hnext]
          by_cases hw : (s.pcb i).wakeupTime ≤ now
          · rw [if_pos hw]
            obtain ⟨l, hadd, ht₁⟩ := ht.wake hi (by simp)
            have hsplit₁ : woken i q .sleep = kept ++ rest := by
              have hnot : i ∉ kept := fun hmem =>
                (List.nodup_append.mp hnd).2.2 i hmem i List.mem_cons_self rfl
              rw [woken_of_ne (by simp), hsplit, List.erase_append_right _ hnot,
                List.erase_cons_head]
            obtain ⟨s', q', hrun, ht', hready, hsleep, hother, hrd⟩ :=
              ih kept rest _ _ ht₁ hsplit₁ hlen
            have hadd' : addQueue .ready i (delQueue i (setStatus i .ready s)) =
                .ok { setStatus i .ready s with links := l } := hadd
            -- waking the task changes no wake-up time
            have hdue : isDue now { setStatus i .ready s with links := l } = isDue now s := by
              funext j
              unfold isDue
              rw [(readied_setStatus i l).pcb j]
            have hpos : isDue now s i = true := decide_eq_true hw
            rw [hdue] at hready hsleep hrd
            refine ⟨s', q', ?_, ht', ?_, ?_, ?_, ?_⟩
            · rw [hadd']
              exact hrun
            · rw [hready, List.filter_cons_of_pos hpos]
              have hnow : woken i q .ready = q .ready ++ [i] := Function.update_self _ _ _
              rw [hnow, List.append_assoc]
              rfl
            · rw [hsleep, List.filter_cons_of_neg (by rw [hpos]; simp)]
            · intro h hr hs
              rw [hother h hr hs, woken_of_ne hr, List.erase_of_not_mem]
              exact fun hmem => hs (ht.queues.unique hmem hi)
            · rw [List.filter_cons_of_pos hpos]
              exact (readied_setStatus i l).append hrd
          · rw [if_neg hw]
            have hneg : isDue now s i = false := decide_eq_false hw
            rw [List.append_cons] at hsplit
            obtain ⟨s', q', hrun, ht', hready, hsleep, hother, hrd⟩ :=
              ih _ rest s q ht hsplit hlen
            refine ⟨s', q', hrun, ht', ?_, ?_, hother, ?_⟩
            · rw [hready, List.filter_cons_of_neg (by rw [hneg]; simp)]
            · rw [hsleep, List.filter_cons_of_pos (by rw [hneg]; rfl), List.append_assoc]
              rfl
            · rw [List.filter_cons_of_neg (by rw [hneg]; simp)]
              exact hrd

/-! ## Putting the task of the core back -/

/-- A task put at the end of the ready queue. -/
theorem requeue_exact (ht : Tidy n s q) (hcpu : cpu < n)
    (hpid : ∀ j, s.coreRunning cpu = .task j → (s.pcb j).status = .running →
      (s.pcb j).pid ≠ 0) :
    ∃ s' q', requeue (s.coreRunning cpu) s = .ok s' ∧ Tidy n s' q' ∧
      q' .ready = q .ready ++ runnable cpu s ∧ (∀ h, h ≠ .ready → q' h = q h) ∧
      Readied (runnable cpu s) s s' := by
  unfold runnable
  cases hlast : s.coreRunning cpu with
  | idle => exact ⟨s, q, rfl, ht, by simp, fun _ _ => rfl, .nil⟩
  | task i =>
      by_cases hrun : (s.pcb i).status = .running
      · have hi : i < numMaxTask := ht.core cpu i hcpu hlast
        have hq : Queues (setStatus i .ready s) q :=
          ht.queues.congr rfl fun j _ => setStatus_available (by simp) (by rw [hrun]; simp) j
        obtain ⟨l, hadd, ht'⟩ := ht.enqueue (h := .ready) hq hi (ht.running hi hrun).2
          (fun j hj => by rw [setStatus_pcb_of_ne hj]) rfl trivial
          (by rw [setStatus_pcb_self, if_pos rfl]) (fun j hj => by cases hj)
        simp only [if_pos hrun]
        exact ⟨_, _, (if_pos ⟨hrun, hpid i hlast hrun⟩).trans hadd, ht',
          Function.update_self _ _ _, fun h hh => Function.update_of_ne hh _ _,
          readied_setStatus i l⟩
      · simp only [if_neg hrun]
        exact ⟨s, q, if_neg (fun hcon => hrun hcon.1), ht, by simp, fun _ _ => rfl, .nil⟩

/-! ## The search -/

/-- The loop over the ready queue finds the first task with the core in its mask. -/
theorem pickLoop_find (ht : Tidy n s q) :
    ∀ (fuel : Nat) (passed rest : List Nat), q .ready = passed ++ rest → rest.length < fuel →
      pickLoop cpu fuel (some (firstNode .ready rest)) s =
        match rest.find? fun i => (s.pcb i).mask.testBit cpu with
        | some i => .ok (some i, delQueue i s)
        | none => .ok (none, s) := by
  intro fuel
  induction fuel with
  | zero =>
      intro passed rest _ hfuel
      omega
  | succ fuel ih =>
      intro passed rest hsplit hfuel
      cases rest with
      | nil => rfl
      | cons i rest =>
          have hunfold : pickLoop cpu (fuel + 1) (some (firstNode .ready (i :: rest))) s =
              if (s.pcb i).mask.testBit cpu then .ok (some i, delQueue i s)
              else pickLoop cpu fuel (s.links.next (.task i)) s := rfl
          rw [hunfold]
          by_cases hm : (s.pcb i).mask.testBit cpu
          · rw [if_pos hm, List.find?_cons]
            simp only [hm]
          · rw [if_neg hm, ht.queues.next_task hsplit, List.find?_cons]
            simp only [Bool.eq_false_iff.mpr hm]
            rw [List.append_cons] at hsplit
            refine ih _ rest hsplit ?_
            rw [List.length_cons] at hfuel
            omega

/-- The search and the switch, from the queue as it is then. -/
theorem pick_dispatch (cpu : Nat) (ht : Tidy n s q) :
    (if listIsEmpty .ready s.links then .ok (dispatch cpu none s)
      else pickLoop cpu rounds (s.links.next .ready) s >>= fun p => .ok (dispatch cpu p.1 p.2)) =
      match (q .ready).find? fun i => (s.pcb i).mask.testBit cpu with
      | some i => .ok (dispatch cpu (some i) (delQueue i s))
      | none => .ok (dispatch cpu none s) := by
  by_cases hempty : listIsEmpty .ready s.links
  · rw [if_pos hempty, (ht.queues.listIsEmpty (h := .ready) trivial).mp hempty]
    rfl
  · rw [if_neg hempty, ht.queues.next_head (h := .ready) trivial,
      pickLoop_find ht rounds [] (q .ready) rfl ht.length_lt]
    cases (q .ready).find? fun i => (s.pcb i).mask.testBit cpu with
    | some i => rfl
    | none => rfl

/-- The state in which the scheduler searches. -/
theorem doScheduler_lineup (ht : Tidy n s q) (hcpu : cpu < n)
    (hpid : ∀ j, s.coreRunning cpu = .task j → (s.pcb j).status = .running → (s.pcb j).pid ≠ 0)
    (now : Nat) :
    ∃ t r, doScheduler cpu now s =
        (match chosen cpu now s q with
        | some i => .ok (dispatch cpu (some i) (delQueue i t))
        | none => .ok (dispatch cpu none t)) ∧
      Tidy n t r ∧ r .ready = lineup cpu now s q ∧
      r .sleep = (q .sleep).filter (fun i => !isDue now s i) ∧
      (∀ h, h ≠ .ready → h ≠ .sleep → r h = q h) ∧
      (∀ j, t.pcb j = { s.pcb j with
        status := if j ∈ lineup cpu now s q then .ready else (s.pcb j).status }) ∧
      t.coreRunning = s.coreRunning := by
  obtain ⟨s₁, q₁, hcheck, ht₁, hready₁, hsleep₁, hother₁, hrd₁⟩ :=
    checkLoop_exact now rounds [] (q .sleep) s q ht rfl ht.length_lt
  have hcheck' : checkSleeping now s = .ok s₁ := by
    unfold checkSleeping
    rw [ht.queues.next_head (h := .sleep) trivial]
    exact hcheck
  have hrunning : ∀ j, (s₁.pcb j).status = .running ↔ (s.pcb j).status = .running := by
    intro j
    rw [hrd₁.pcb]
    by_cases hj : j ∈ (q .sleep).filter (isDue now s)
    · -- a sleeper is blocked
      have hst := ht.status_of_mem (List.mem_filter.mp hj).1
      rw [if_neg (by simp)] at hst
      simp only [if_pos hj, hst]
      simp
    · simp only [if_neg hj]
  have hsame : runnable cpu s₁ = runnable cpu s := by
    unfold runnable
    rw [hrd₁.core]
    cases s.coreRunning cpu with
    | idle => rfl
    | task i => simp only [hrunning i]
  obtain ⟨s₂, q₂, hreq, ht₂, hready₂, hother₂, hrd₂⟩ := requeue_exact ht₁ hcpu (by
    intro j hj hst
    rw [hrd₁.core] at hj
    rw [hrd₁.pcb]
    exact hpid j hj ((hrunning j).mp hst))
  rw [hsame] at hready₂ hrd₂
  rw [hrd₁.core] at hreq
  have hall := hrd₁.append hrd₂
  have hline : q₂ .ready = lineup cpu now s q := by
    rw [hready₂, hready₁]
    rfl
  have hfind : (q₂ .ready).find? (fun i => (s₂.pcb i).mask.testBit cpu) = chosen cpu now s q := by
    rw [hline]
    unfold chosen
    congr 1
    funext i
    rw [hall.pcb i]
  refine ⟨s₂, q₂, ?_, ht₂, hline, ?_, ?_, ?_, hall.core⟩
  · unfold doScheduler
    rw [hcheck']
    change requeue (s.coreRunning cpu) s₁ >>= _ = _
    rw [hreq]
    have hpick := pick_dispatch cpu ht₂
    rw [hfind] at hpick
    exact hpick
  · rw [hother₂ _ (by simp), hsleep₁]
    rfl
  · intro h hr hs
    rw [hother₂ h hr, hother₁ h hr hs]
  · intro j
    rw [hall.pcb j]
    by_cases hj : j ∈ lineup cpu now s q
    · -- what was in the ready queue before is ready
      rw [if_pos hj]
      by_cases hnew : j ∈ (q .sleep).filter (isDue now s) ++ runnable cpu s
      · rw [if_pos hnew]
      · rw [if_neg hnew]
        unfold lineup at hj
        rw [List.append_assoc, List.mem_append] at hj
        have hst := ht.status_of_mem (hj.resolve_right hnew)
        rw [if_pos rfl] at hst
        rw [hst]
    · have hnew : j ∉ (q .sleep).filter (isDue now s) ++ runnable cpu s := by
        intro hmem
        refine hj ?_
        unfold lineup
        rw [List.append_assoc]
        exact List.mem_append_right _ hmem
      rw [if_neg hj, if_neg hnew]

/-- The tasks lined up and the sleepers left are the tasks from before. -/
theorem lineup_perm (cpu now : Nat) (s : State) (q : Node → List Nat) :
    (runnable cpu s ++ q .ready ++ q .sleep).Perm
      (lineup cpu now s q ++ (q .sleep).filter fun i => !isDue now s i) := by
  have hsleep : (q .sleep).Perm ((q .sleep).filter (isDue now s) ++
      (q .sleep).filter fun i => !isDue now s i) :=
    (List.filter_append_perm (isDue now s) (q .sleep)).symm
  have hfront : (runnable cpu s ++ q .ready ++ q .sleep).Perm
      (q .ready ++ (q .sleep ++ runnable cpu s)) := by
    rw [List.append_assoc, ← List.append_assoc (q .ready)]
    exact List.perm_append_comm
  have hback : ((q .sleep).filter (isDue now s) ++
      ((q .sleep).filter (fun i => !isDue now s i) ++ runnable cpu s)).Perm
      ((q .sleep).filter (isDue now s) ++
        (runnable cpu s ++ (q .sleep).filter fun i => !isDue now s i)) :=
    List.perm_append_comm.append_left _
  refine hfront.trans (((hsleep.append_right _).append_left _).trans ?_)
  unfold lineup
  rw [List.append_assoc, List.append_assoc, List.append_assoc]
  exact hback.append_left _

/-- **Scheduling.**  From every consistent state of the queues the scheduler returns,
having selected the first task of the line-up that may run on the core, and it loses or
doubles no task. -/
theorem doScheduler_selects (ht : Tidy n s q) (hcpu : cpu < n)
    (hpid : ∀ j, s.coreRunning cpu = .task j → (s.pcb j).status = .running → (s.pcb j).pid ≠ 0)
    (now : Nat) :
    ∃ s' q', doScheduler cpu now s = .ok s' ∧ Selects cpu now s q s' q' := by
  obtain ⟨t, r, hrun, ht', hready, hsleep, hother, hpcb, hcore⟩ :=
    doScheduler_lineup ht hcpu hpid now
  rw [hrun]
  cases hc : chosen cpu now s q with
  | none =>
      refine ⟨_, r, rfl, ?_, ?_, hsleep, hother, ?_, ?_, ?_⟩
      · exact ht'.queues.congr rfl fun _ _ => Iff.rfl
      · rw [hready, hc]
      · rw [hc, ← hcore]
        rfl
      · intro i
        rw [hc]
        exact hpcb i
      · have hidle : runnable cpu (dispatch cpu none t) = [] := by
          unfold runnable
          rw [show (dispatch cpu none t).coreRunning cpu = .idle from Function.update_self _ _ _]
        rw [hidle, List.nil_append, hready, hsleep]
        exact lineup_perm cpu now s q
  | some i =>
      have hi : i ∈ r .ready := by
        rw [hready]
        exact List.mem_of_find?_eq_some hc
      have herase : ∀ h, h ≠ .ready → (r h).erase i = r h := by
        intro h hh
        exact List.erase_of_not_mem fun hmem => hh (ht'.queues.unique hmem hi)
      refine ⟨_, fun b => (r b).erase i, rfl, ?_, ?_, ?_, ?_, ?_, ?_, ?_⟩
      · exact ht'.queues.del_any.congr rfl fun j _ =>
          setStatus_available (by simp) (ht'.live_of_mem hi).2 j
      · simp only [hready, hc]
      · exact (herase _ (by simp)).trans hsleep
      · intro h hr hs
        exact (herase h hr).trans (hother h hr hs)
      · rw [hc, ← hcore]
        rfl
      · intro j
        change (setStatus i .running t).pcb j = _
        rw [hc]
        by_cases hj : i = j
        · subst hj
          rw [if_pos rfl]
          refine (Function.update_self _ _ _).trans ?_
          rw [hpcb]
        · rw [setStatus_pcb_of_ne (fun h => hj h.symm), hpcb,
            if_neg (fun h => hj (Option.some.inj h))]
      · have hon : runnable cpu (dispatch cpu (some i) (delQueue i t)) = [i] := by
          unfold runnable
          rw [show (dispatch cpu (some i) (delQueue i t)).coreRunning cpu = .task i from
            Function.update_self _ _ _]
          exact if_pos (setStatus_pcb_self i .running)
        rw [hon, herase .sleep (by simp), hready, hsleep]
        refine (lineup_perm cpu now s q).trans (List.Perm.append_right _ ?_)
        rw [hready] at hi
        exact List.perm_cons_erase hi

end

/-- The shell has started three tasks and sleeps until five; the second task may only run on the
other core. -/
def crowdedCalls : List Call := [.tick 0 0, .exec, .exec, .exec, .sleep 5 0 0]

def crowded (s : State) : State := setPcb 2 { s.pcb 2 with mask := 2 } s

theorem Tidy.crowded {n : Nat} {s : State} {q : Node → List Nat} (ht : Tidy n s q) :
    Tidy n (crowded s) q := by
  refine ht.congr rfl (fun j => ?_) rfl
  by_cases hj : j = 2
  · subst hj
    simp only [Sched.crowded, setPcb, Function.update_self]
  · exact congrArg Pcb.status (Function.update_of_ne hj ..)

/-- At seven the first task is running, the shell is due, and the third task is chosen: the second
stands in front of it. -/
theorem doScheduler_selects_crowded : ∃ s s' q', run (step 0) crowdedCalls initState = .ok s ∧
    doScheduler 0 7 (crowded s) = .ok s' ∧ s'.coreRunning 0 = .task 3 ∧
      q' .ready = [2, 0, 1] ∧ q' .sleep = [] ∧ Queues s' q' := by
  have hlegal : AllSteps (step 0) (Legal 0) crowdedCalls initState := by decide +kernel
  obtain ⟨s, q, hrun, hs, _⟩ :=
    run_settled crowdedCalls initState initQueues (initState_settled 1) initState_pids hlegal
  obtain ⟨t, ht, hready, hsleep, hcore, hpid, hdue, hnone, hrunnable, hmask⟩ :=
    exists_of_returns (ε := Stop)
      (P := fun t : State => queued .ready (crowded t) = [2, 3] ∧ queued .sleep (crowded t) = [0] ∧
        (crowded t).coreRunning 0 = .task 1 ∧ ((crowded t).pcb 1).pid ≠ 0 ∧
        [0].filter (isDue 7 (crowded t)) = [0] ∧ [0].filter (fun i => !isDue 7 (crowded t) i) = [] ∧
        runnable 0 (crowded t) = [1] ∧
        [2, 3, 0, 1].find? (fun i => ((crowded t).pcb i).mask.testBit 0) = some 3)
      (x := run (step 0) crowdedCalls initState) (by decide +kernel)
  cases hrun.symm.trans ht
  have htidy := hs.toTidy.crowded
  rw [htidy.queued_eq (by trivial)] at hready hsleep
  have hline : lineup 0 7 (crowded s) q = [2, 3, 0, 1] := by
    rw [lineup, hready, hsleep, hdue, hrunnable]
    rfl
  have hchosen : chosen 0 7 (crowded s) q = some 3 := by
    rw [chosen, hline]
    exact hmask
  obtain ⟨s', q', hok, hsel⟩ := doScheduler_selects htidy (by decide : 0 < 1) (fun j hj _ => by
    cases hcore.symm.trans hj
    exact hpid) 7
  refine ⟨s, s', q', hrun, hok, ?_, ?_, ?_, hsel.queues⟩
  · rw [hsel.core, hchosen]
    exact Function.update_self ..
  · rw [hsel.ready, hchosen, hline]
    rfl
  · rw [hsel.sleep, hsleep]
    exact hnone

end Sched
