import OslabRiscv.Sched.Runs

/-!
# Status and queue agree

On one core, after any sequence of legal calls from the state `init_pcb` builds,
every PCB is in the one place its status says, and no task waits for a PCB that
has ended.  The loops of `do_exit` and `do_kill` that empty a wait list
therefore end.
-/

namespace Sched

open IntrusiveList Outcome

/-- The PCB's node `list` is in no queue, and its links are null. -/
def Unlinked (s : State) (i : Nat) : Prop :=
  s.links.next (.task i) = none ∧ s.links.prev (.task i) = none ∧
    ∀ h, IsHead s h → i ∉ queued h s

/-- The situation of a PCB, one for each status. -/
def Situated (s : State) (i : Nat) : Prop :=
  match (s.pcb i).status with
  | .ready => (queued .ready s).count i = 1 ∧ ∀ h, IsHead s h → h ≠ .ready → i ∉ queued h s
  | .blocked => ∃ h, IsHead s h ∧ h ≠ .ready ∧ (queued h s).count i = 1 ∧
      ∀ b, IsHead s b → b ≠ h → i ∉ queued b s
  | .running => s.coreRunning 0 = .task i ∧ Unlinked s i
  | .exited | .available => Unlinked s i

/-- The state of the queues and of the process table between two kernel entries. -/
structure Consistent (s : State) : Prop where
  /-- The forward and backward links of every queue run through its PCBs. -/
  rings : ∀ h, IsHead s h → Ring s.links h ((queued h s).map Node.task)
  situated : ∀ i, i < numMaxTask → Situated s i
  /-- Nothing waits for a PCB that exited. -/
  exited : ∀ i, i < numMaxTask → (s.pcb i).status = .exited → queued (.wait i) s = []
  /-- Nothing is linked to a wait list that was never used. -/
  available : ∀ i, i < numMaxTask → (s.pcb i).status = .available →
    s.links.next (.wait i) = none ∧ s.links.prev (.wait i) = none
  /-- The loop of `do_exit` ends for the running task. -/
  exit_drains : ∀ i, s.coreRunning 0 = .task i →
    ∃ s', drainLoop Links.prev i rounds s = .ok s'
  /-- The loop of `do_kill` ends for every victim. -/
  kill_drains : ∀ pid i, 0 < pid → findPid pid s = some i →
    ∃ s', drainLoop Links.next i rounds s = .ok s'

section

variable {s : State} {q : Node → List Nat} {i : Nat}

theorem Queues.detached (hq : Queues s q) (hfree : ∀ b, i ∉ q b) :
    s.links.next (.task i) = none ∧ s.links.prev (.task i) = none := by
  refine hq.rings.detached (.task i) not_isHead_task ?_
  intro b _ hmem
  exact hfree b ((List.mem_map_of_injective task_injective).mp hmem)

theorem Tidy.unlinked {n : Nat} (ht : Tidy n s q) (hfree : ∀ b, i ∉ q b) : Unlinked s i := by
  obtain ⟨hnext, hprev⟩ := ht.queues.detached hfree
  refine ⟨hnext, hprev, fun h hh => ?_⟩
  rw [ht.queued_eq hh]
  exact hfree h

theorem Tidy.situated (ht : Tidy 1 s q) (hi : i < numMaxTask) : Situated s i := by
  have hp := ht.placed i hi
  have hcount : ∀ h, i ∈ q h → (queued h s).count i = 1 := by
    intro h hmem
    rw [ht.queued_eq (ht.queues.isHead hmem)]
    exact List.count_eq_one_of_mem ht.queues.nodup hmem
  unfold Placed at hp
  unfold Situated
  cases hst : (s.pcb i).status with
  | ready =>
      rw [hst] at hp
      refine ⟨hcount _ ((hp .ready).mpr rfl), fun h hh hne => ?_⟩
      rw [ht.queued_eq hh]
      exact fun hmem => hne ((hp h).mp hmem)
  | blocked =>
      rw [hst] at hp
      obtain ⟨h, hne, hmem⟩ := hp
      have hih := (hmem h).mpr rfl
      refine ⟨h, ht.queues.isHead hih, hne, hcount h hih, fun b hb hbh => ?_⟩
      rw [ht.queued_eq hb]
      exact fun hib => hbh ((hmem b).mp hib)
  | running =>
      rw [hst] at hp
      obtain ⟨⟨c, hc, hci⟩, hfree⟩ := hp
      have hc0 : c = 0 := by omega
      exact ⟨hc0 ▸ hci, ht.unlinked hfree⟩
  | exited =>
      rw [hst] at hp
      exact ht.unlinked hp.2
  | available =>
      rw [hst] at hp
      exact ht.unlinked hp.2

theorem Settled.consistent (hs : Settled 1 s q) (hp : Pids s) : Consistent s := by
  refine ⟨?_, fun i hi => hs.toTidy.situated hi, ?_, ?_, ?_, ?_⟩
  · intro h hh
    rw [hs.toTidy.queued_eq hh]
    exact hs.queues.rings.ring h hh
  · intro i hi hst
    have hh : IsHead s (.wait i) := ⟨hi, by rw [hst]; simp⟩
    rw [hs.toTidy.queued_eq hh]
    exact (hs.toTidy.ended hi (fun hl => hl.1 hst)).1
  · intro i _ hst
    refine hs.queues.rings.detached (.wait i) (fun hh => hh.2 hst) ?_
    intro b _ hmem
    obtain ⟨j, _, hj⟩ := List.mem_map.mp hmem
    cases hj
  · intro i hcur
    obtain ⟨hi, hrun, _⟩ := hs.current (by omega) hcur
    obtain ⟨s', _, hdrain, _⟩ := drainLoop_prev hs.toTidy hi (live_of_running hrun).2
    exact ⟨s', hdrain⟩
  · intro pid i hpid hf
    obtain ⟨s', _, hdrain, _⟩ := drainLoop_next hs.toTidy (findPid_lt hf).1
      (hp.inUse (Or.inl hpid) hf)
    exact ⟨s', hdrain⟩

end

/-- On one core no task runs on another one. -/
theorem killsOwn_single (s : State) (c : Call) : KillsOwn 1 0 s c := by
  cases c with
  | kill pid now =>
      intro i _ d hd _
      omega
  | _ => trivial

/-- What the steps of a single core preserve. -/
theorem run_settled (cs : List Call) (s : State) (q : Node → List Nat) (hs : Settled 1 s q)
    (hp : Pids s) (hlegal : AllSteps (step 0) (Legal 0) cs s) :
    ∃ s' q', run (step 0) cs s = .ok s' ∧ Settled 1 s' q' ∧ Pids s' := by
  induction cs generalizing s q with
  | nil => exact ⟨s, q, rfl, hs, hp⟩
  | cons c cs ih =>
      obtain ⟨s₁, q₁, hstep, hs₁, hp₁⟩ :=
        step_settled hs hp (by omega) hlegal.head (killsOwn_single s c)
      obtain ⟨s', q', hrun, hs', hp'⟩ := ih s₁ q₁ hs₁ hp₁ (hlegal.tail hstep)
      refine ⟨s', q', ?_, hs', hp'⟩
      unfold run
      rw [hstep]
      exact hrun

/-- **Every PCB is where its status says.**  A sequence of legal kernel entries
on one core returns from each of them, and the state it leaves is consistent. -/
theorem calls_consistent (cs : List Call)
    (hlegal : AllSteps (step 0) (Legal 0) cs initState) :
    ∃ s, run (step 0) cs initState = .ok s ∧ Consistent s := by
  obtain ⟨s, q, hrun, hs, hp⟩ :=
    run_settled cs initState initQueues (initState_settled 1) initState_pids hlegal
  exact ⟨s, hrun, hs.consistent hp⟩

/-- The shell starts two tasks and waits for the first, which takes a mutex the
second then waits for; the first kills the second, itself waited for, and exits. -/
theorem calls_consistent_sample :
    ∃ s, run (step 0) [.tick 0 0, .exec, .exec, .waitpid 2 0, .acquire 0 0, .tick 1 1,
      .acquire 0 1, .kill 3 1, .release 0, .exit 2] initState = .ok s ∧ Consistent s :=
  calls_consistent _ (by decide +kernel)

end Sched
