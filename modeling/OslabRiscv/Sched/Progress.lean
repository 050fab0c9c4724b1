import OslabRiscv.Sched.Places

/-!
# Every task gets its turn

In every run of any number of cores a ready task runs after a bounded number of timer ticks, a
sleeper wakes at its time and not before, and who waits for a task is woken when that one ends and
not before.
-/

namespace Sched

open IntrusiveList Outcome WaitingLine

/-- A kernel entry on one of the cores that kills no task while another core runs it. -/
def Proper (n : Nat) (s : State) (p : Nat × Call) : Prop := p.1 < n ∧ KillsOwn n p.1 s p.2

instance (n : Nat) (s : State) (p : Nat × Call) : Decidable (Proper n s p) :=
  inferInstanceAs (Decidable (_ ∧ _))

/-- The entry does not end task `i`. -/
def Spares (i : Nat) (s : State) (p : Nat × Call) : Prop := ends p.1 s p.2 ≠ some i

instance (i : Nat) (s : State) (p : Nat × Call) : Decidable (Spares i s p) :=
  inferInstanceAs (Decidable (_ ≠ _))

/-- The state of a run between two entries. -/
def Between (n : Nat) (s : State) : Prop := ∃ q, Settled n s q ∧ Pids s

section Run

variable {n i j : Nat} {s s' t : State} {q : Node → List Nat} {h : Node} {p : Nat × Call}
  {pre cs : List (Nat × Call)}

/-- What an entry does to a task in a queue. -/
theorem stepOn_advances (hs : Settled n s q) (hp : Pids s) (hproper : Proper n s p)
    (hspare : Spares i s p) (hi : i ∈ q h) (hok : stepOn p s = .ok s') :
    ∃ q', Settled n s' q' ∧ Pids s' ∧
      Advances n i p.1 (ends p.1 s p.2) p.2.clock p.2.turn s q s' q' := by
  have hlegal := legal_of_ok hs.toTidy hok
  obtain ⟨s₁, q', hstep, hs', hp'⟩ := step_settled hs hp hproper.1 hlegal hproper.2
  cases hstep.symm.trans hok
  obtain ⟨q₁, hq₁, hlen, hadv⟩ := handle_advances hs hp hproper.1 hproper.2 hspare hi hok
  cases hs'.toTidy.queues_unique hq₁ hlen
  exact ⟨q', hs', hp', hadv⟩

theorem reached_between (hpre : AllSteps stepOn (Proper n) pre initState)
    (hs : run stepOn pre initState = .ok s) : Between n s := by
  refine run_invariant (I := Between n) ?_ pre initState s
    ⟨initQueues, initState_settled n, initState_pids⟩ hpre hs
  rintro s p s' ⟨q, hs, hp⟩ hproper hok
  obtain ⟨s₁, q', hstep, hs', hp'⟩ :=
    step_settled hs hp hproper.1 (legal_of_ok hs.toTidy hok) hproper.2
  cases hstep.symm.trans hok
  exact ⟨q', hs', hp'⟩

/-- **No task starves.**  A ready task that is not killed runs after at most as many timer ticks or
yields, on cores that it may run on, as tasks were ahead of it, and one more; whatever calls are
made meanwhile. -/
theorem ready_runs (hpre : AllSteps stepOn (Proper n) pre initState)
    (hs : run stepOn pre initState = .ok s) (hi : i < numMaxTask)
    (hready : (s.pcb i).status = .ready)
    (hcs : AllSteps stepOn (fun s p => Proper n s p ∧ Spares i s p) cs s)
    (hrun : run stepOn cs s = .ok t)
    (hturns : (queued .ready s).idxOf i <
      cs.countP fun p => p.2.turn.isSome && (s.pcb i).mask.testBit p.1) :
    ∃ k s', run stepOn (cs.take k) s = .ok s' ∧ Runs n i s' := by
  obtain ⟨q, hset, hp⟩ := reached_between hpre hs
  have hmem : i ∈ q .ready := by
    have hplaced := hset.placed i hi
    unfold Placed at hplaced
    rw [hready] at hplaced
    exact (hplaced .ready).mpr rfl
  obtain ⟨ahead, hline⟩ := exists_inLine hmem
  rw [hset.toTidy.queued_eq (h := .ready) trivial, hline.idxOf] at hturns
  refine run_reaches (I := fun m s' => ∃ q ahead, Settled n s' q ∧ Pids s' ∧
    InLine i ahead (q .ready) ∧ ahead.length = m ∧ (s'.pcb i).mask = (s.pcb i).mask)
    ?_ cs ahead.length s t ⟨q, ahead, hset, hp, hline, rfl, rfl⟩ hcs hrun hturns
  rintro m s₁ p s₂ ⟨q₁, ahead₁, hset₁, hp₁, hline₁, rfl, hmask⟩ ⟨hproper, hspare⟩ hok
  obtain ⟨q₂, hset₂, hp₂, hadv⟩ := stepOn_advances hset₁ hp₁ hproper hspare hline₁.mem hok
  rcases hadv.line ahead₁ hline₁ with hruns | ⟨ahead₂, hline₂, hle, hlt⟩
  · exact .inl hruns
  · refine .inr ⟨_, ⟨q₂, ahead₂, hset₂, hp₂, hline₂, rfl, hadv.same.1.trans hmask⟩, hle, ?_⟩
    intro hcount
    rw [Bool.and_eq_true, ← hmask] at hcount
    exact hlt hcount.1 hcount.2

/-- A task of the ready queue is ready. -/
theorem Settled.ready_or_runs (hs : Settled n s q) (hi : i ∈ q .ready ∨ Runs n i s) :
    (s.pcb i).status = .ready ∨ Runs n i s := by
  rcases hi with hi | hi
  · have hst := hs.toTidy.status_of_mem hi
    rw [if_pos rfl] at hst
    exact .inl hst
  · exact .inr hi

/-- A sleeper is asleep until an entry sees a clock value that is late enough, and wakes at the next
tick or yield that does. -/
theorem sleeper_run (cs : List (Nat × Call)) : ∀ {s t : State}, Between n s →
    i ∈ queued .sleep s → AllSteps stepOn (fun s p => Proper n s p ∧ Spares i s p) cs s →
    run stepOn cs s = .ok t →
    i ∈ queued .sleep t ∧ (t.pcb i).wakeupTime = (s.pcb i).wakeupTime ∧
      (∀ p ∈ cs, ∀ now, p.2.turn = some now → now < (s.pcb i).wakeupTime) ∨
    ∃ k s', k < cs.length ∧ run stepOn (cs.take (k + 1)) s = .ok s' ∧
      ((s'.pcb i).status = .ready ∨ Runs n i s') ∧
      ∃ p ∈ cs[k]?, ∃ now, p.2.clock now ∧ (s.pcb i).wakeupTime ≤ now := by
  induction cs with
  | nil =>
      intro s t _ hi _ hrun
      cases hrun
      exact .inl ⟨hi, rfl, fun p hp => absurd hp List.not_mem_nil⟩
  | cons p cs ih =>
      intro s t ⟨q, hset, hp⟩ hi hcs hrun
      rw [hset.toTidy.queued_eq (h := .sleep) trivial] at hi
      obtain ⟨s₁, hok, hrest⟩ := run_cons hrun
      obtain ⟨q₁, hset₁, hp₁, hadv⟩ := stepOn_advances hset hp hcs.head.1 hcs.head.2 hi hok
      have hnext : ∀ k, run stepOn ((p :: cs).take (k + 1)) s = run stepOn (cs.take k) s₁ := by
        intro k
        simp only [List.take_succ_cons, run, hok]
        rfl
      rcases hadv.sleep hi with ⟨hi₁, hearly⟩ | ⟨hwoken, now, hclock, hle⟩
      · rw [← hset₁.toTidy.queued_eq (h := .sleep) trivial] at hi₁
        rcases ih ⟨q₁, hset₁, hp₁⟩ hi₁ (hcs.tail hok) hrest with
          ⟨hi', hwake, hall⟩ | ⟨k, s', hk, hrun', hready, p', hp', now, hclock, hle⟩
        · refine .inl ⟨hi', hwake.trans hadv.same.2, fun p' hp' now hnow => ?_⟩
          rcases List.mem_cons.mp hp' with rfl | hp'
          · exact hearly now hnow
          · exact hadv.same.2 ▸ hall p' hp' now hnow
        · refine .inr ⟨k + 1, s', Nat.succ_lt_succ hk, ?_, hready, p', hp', now, hclock,
            hadv.same.2 ▸ hle⟩
          rw [hnext]
          exact hrun'
      · refine .inr ⟨0, s₁, Nat.succ_pos _, ?_, hset₁.ready_or_runs hwoken, p, rfl, now, hclock, hle⟩
        rw [hnext]
        rfl

/-- **Sleepers wake in time.**  A sleeper that is not killed sleeps on as long as no call sees a clock
value that is late enough, and is ready or running once a timer tick or a yield has seen one. -/
theorem sleeper_wakes (hpre : AllSteps stepOn (Proper n) pre initState)
    (hs : run stepOn pre initState = .ok s) (hsleep : i ∈ queued .sleep s)
    (hcs : AllSteps stepOn (fun s p => Proper n s p ∧ Spares i s p) cs s)
    (hrun : run stepOn cs s = .ok t) :
    ((∀ p ∈ cs, ∀ now, p.2.clock now → now < (s.pcb i).wakeupTime) → i ∈ queued .sleep t) ∧
    ((∃ p ∈ cs, ∃ now, p.2.turn = some now ∧ (s.pcb i).wakeupTime ≤ now) →
      ∃ k s', run stepOn (cs.take k) s = .ok s' ∧ ((s'.pcb i).status = .ready ∨ Runs n i s')) := by
  rcases sleeper_run cs (reached_between hpre hs) hsleep hcs hrun with
    ⟨hasleep, _, hearly⟩ | ⟨k, s', _, hrun', hready, p, hp, now, hclock, hle⟩
  · refine ⟨fun _ => hasleep, fun ⟨p, hp, now, hnow, hle⟩ => ?_⟩
    exact absurd hle (Nat.not_le.mpr (hearly p hp now hnow))
  · refine ⟨fun hall => ?_, fun _ => ⟨k + 1, s', hrun', hready⟩⟩
    exact absurd hle (Nat.not_le.mpr (hall p (List.mem_of_getElem? hp) now hclock))

/-- Only a wait list that was initialised has tasks linked. -/
theorem Settled.mem_wait (hs : Settled n s q) : i ∈ queued (.wait j) s ↔ i ∈ q (.wait j) := by
  by_cases hh : IsHead s (.wait j)
  · rw [hs.toTidy.queued_eq hh]
  · have hfree : ∀ b, IsHead s b → Node.wait j ∉ (q b).map Node.task := by
      intro b _ hmem
      obtain ⟨m, _, hm⟩ := List.mem_map.mp hmem
      cases hm
    rw [hs.queues.heads _ hh]
    unfold queued
    rw [(hs.queues.rings.detached (.wait j) hh hfree).1]
    exact iff_of_false List.not_mem_nil List.not_mem_nil

/-- Who waits for a task does so while it lasts. -/
theorem waiter_run (hs : Between n s) (hi : i ∈ queued (.wait j) s)
    (hcs : AllSteps stepOn (fun s p => Proper n s p ∧ Spares i s p ∧ Spares j s p) cs s)
    (hrun : run stepOn cs s = .ok t) : Between n t ∧ i ∈ queued (.wait j) t := by
  refine run_invariant (I := fun s => Between n s ∧ i ∈ queued (.wait j) s) ?_ cs s t ⟨hs, hi⟩ hcs hrun
  rintro s p s' ⟨⟨q, hset, hp⟩, hi⟩ ⟨hproper, hspare, hlasts⟩ hok
  rw [hset.mem_wait] at hi
  obtain ⟨q', hset', hp', hadv⟩ := stepOn_advances hset hp hproper hspare hi hok
  refine ⟨⟨q', hset', hp'⟩, hset'.mem_wait.mpr ?_⟩
  exact (hadv.wait j hi).resolve_right fun hcon => hlasts hcon.2

/-- **Waiting for a task ends when the task does.**  Who waits for task `j` stays blocked while calls
are made that end neither of the two, and is ready or running after the call that ends `j`. -/
theorem waiter_wakes (hpre : AllSteps stepOn (Proper n) pre initState)
    (hs : run stepOn pre initState = .ok s) (hwait : i ∈ queued (.wait j) s)
    (hcs : AllSteps stepOn (fun s p => Proper n s p ∧ Spares i s p ∧ Spares j s p) cs s)
    (hrun : run stepOn cs s = .ok t) :
    (t.pcb i).status = .blocked ∧ i ∈ queued (.wait j) t ∧
    ∀ p t', Proper n t p → Spares i t p → ends p.1 t p.2 = some j → stepOn p t = .ok t' →
      (t'.pcb i).status = .ready ∨ Runs n i t' := by
  obtain ⟨⟨q, hset, hp⟩, hi⟩ := waiter_run (reached_between hpre hs) hwait hcs hrun
  have hmem := hset.mem_wait.mp hi
  have hst := hset.toTidy.status_of_mem hmem
  rw [if_neg (by simp)] at hst
  refine ⟨hst, hi, fun p t' hproper hspare hends hok => ?_⟩
  obtain ⟨q', hset', hp', hadv⟩ := stepOn_advances hset hp hproper hspare hmem hok
  rcases hadv.wait j hmem with hstays | ⟨hwoken, _⟩
  · have hex := exited_of_ends hset hp hproper.1 hproper.2 hends hok
    have hj : j < numMaxTask := (hset'.queues.isHead hstays).1
    rw [(hset'.toTidy.ended hj (fun hl => hl.1 hex)).1] at hstays
    cases hstays
  · exact hset'.ready_or_runs hwoken

/-- The shell has started two tasks; the second of them runs at the second tick. -/
theorem ready_runs_second : ∃ s k s',
    run stepOn [(0, .tick 0 0), (0, .exec), (0, .exec)] initState = .ok s ∧
    run stepOn (List.take k [(0, .tick 1 1), (0, .tick 2 2)]) s = .ok s' ∧ Runs 1 2 s' := by
  obtain ⟨s, hs, hready, hcs, hret, hturns⟩ := exists_of_returns (ε := Stop)
    (P := fun s => (s.pcb 2).status = .ready ∧
      AllSteps stepOn (fun s p => Proper 1 s p ∧ Spares 2 s p) [(0, .tick 1 1), (0, .tick 2 2)] s ∧
      returns (fun _ => True) (run stepOn [(0, .tick 1 1), (0, .tick 2 2)] s) ∧
      (queued .ready s).idxOf 2 < [((0 : Nat), Call.tick 1 1), (0, .tick 2 2)].countP
        fun p => p.2.turn.isSome && (s.pcb 2).mask.testBit p.1)
    (x := run stepOn [(0, .tick 0 0), (0, .exec), (0, .exec)] initState) (by decide +kernel)
  obtain ⟨t, ht, _⟩ := exists_of_returns hret
  obtain ⟨k, s', hk, hruns⟩ := ready_runs (by decide +kernel) hs (by decide) hready hcs ht hturns
  exact ⟨s, k, s', hs, hk, hruns⟩

/-- The shell sleeps until the clock shows five. -/
theorem sleeper_wakes_shell : ∃ s k s',
    run stepOn [(0, .tick 0 0), (0, .exec), (0, .sleep 5 0 0)] initState = .ok s ∧
    run stepOn (List.take k [(0, .tick 1 1), (0, .tick 5 5)]) s = .ok s' ∧
    ((s'.pcb 0).status = .ready ∨ Runs 1 0 s') := by
  obtain ⟨s, hs, hsleep, hwake, hcs, hret⟩ := exists_of_returns (ε := Stop)
    (P := fun s => 0 ∈ queued .sleep s ∧ (s.pcb 0).wakeupTime ≤ 5 ∧
      AllSteps stepOn (fun s p => Proper 1 s p ∧ Spares 0 s p) [(0, .tick 1 1), (0, .tick 5 5)] s ∧
      returns (fun _ => True) (run stepOn [(0, .tick 1 1), (0, .tick 5 5)] s))
    (x := run stepOn [(0, .tick 0 0), (0, .exec), (0, .sleep 5 0 0)] initState) (by decide +kernel)
  obtain ⟨t, ht, _⟩ := exists_of_returns hret
  obtain ⟨k, s', hk, hready⟩ := (sleeper_wakes (by decide +kernel) hs hsleep hcs ht).2
    ⟨(0, .tick 5 5), by simp, 5, rfl, hwake⟩
  exact ⟨s, k, s', hs, hk, hready⟩

/-- The shell waits for the task that it has started, and is ready when that one exits. -/
theorem waiter_wakes_shell : ∃ s t t',
    run stepOn [(0, .tick 0 0), (0, .exec), (0, .waitpid 2 0)] initState = .ok s ∧
    run stepOn [(0, .tick 1 1)] s = .ok t ∧ (t.pcb 0).status = .blocked ∧
    stepOn (0, .exit 2) t = .ok t' ∧ ((t'.pcb 0).status = .ready ∨ Runs 1 0 t') := by
  obtain ⟨s, hs, hwait, hcs, hret⟩ := exists_of_returns (ε := Stop)
    (P := fun s => 0 ∈ queued (.wait 1) s ∧
      AllSteps stepOn (fun s p => Proper 1 s p ∧ Spares 0 s p ∧ Spares 1 s p) [(0, .tick 1 1)] s ∧
      returns (fun t => Spares 0 t (0, .exit 2) ∧ ends 0 t (.exit 2) = some 1 ∧
        returns (fun _ => True) (stepOn (0, .exit 2) t)) (run stepOn [(0, .tick 1 1)] s))
    (x := run stepOn [(0, .tick 0 0), (0, .exec), (0, .waitpid 2 0)] initState) (by decide +kernel)
  obtain ⟨t, ht, hspare, hends, hret'⟩ := exists_of_returns hret
  obtain ⟨t', ht', _⟩ := exists_of_returns hret'
  obtain ⟨hblocked, _, hend⟩ := waiter_wakes (n := 1) (by decide +kernel) hs hwait hcs ht
  exact ⟨s, t, t', hs, ht, hblocked, ht', hend (0, .exit 2) t' ⟨by decide, trivial⟩ hspare hends ht'⟩

end Run

end Sched
