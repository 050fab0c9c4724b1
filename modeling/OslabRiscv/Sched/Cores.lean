import OslabRiscv.Sched.Consistency

/-!
# Two cores

The kernel lock serialises the kernel entries of the two cores, so a run is a
sequence of entries, each on one of them.  `do_kill` marks a task that the other
core runs as exited but reschedules its own core only, and the slot can be
taken again while the other core still executes there.  As long as no such task
is killed, no slot is taken from under a core.
-/

namespace Sched

open IntrusiveList Outcome

/-- A kernel entry on the core named. -/
def stepOn (p : Nat × Call) (s : State) : Except Stop State := step p.1 p.2 s

/-- No two cores run the same PCB, and the slot that `do_exec` and
`do_thread_create` would take is run by none. -/
structure Exclusive (s : State) : Prop where
  apart : ∀ i, s.coreRunning 0 = .task i → s.coreRunning 1 ≠ .task i
  slot : ∀ i, freeSlot s = some i → s.coreRunning 0 ≠ .task i ∧ s.coreRunning 1 ≠ .task i

theorem Settled.exclusive {s : State} {q : Node → List Nat} (hs : Settled 2 s q) :
    Exclusive s := by
  have hslot : ∀ i, freeSlot s = some i → ∀ c, c < 2 → s.coreRunning c ≠ .task i := by
    intro i hf c hc hci
    exact (freeSlot_some hf).2 (live_of_running (hs.busy c i hc hci))
  refine ⟨?_, fun i hf => ⟨hslot i hf 0 (by omega), hslot i hf 1 (by omega)⟩⟩
  intro i h₀ h₁
  have := hs.apart 0 1 i (by omega) (by omega) h₀ h₁
  omega

/-- One entry of a run of both cores that kills no task while the other core
runs it. -/
theorem stepOn_settled (s : State) (p : Nat × Call) (s' : State)
    (hs : ∃ q, Settled 2 s q ∧ Pids s) (hp : p.1 < 2 ∧ KillsOwn 2 p.1 s p.2)
    (hstep : stepOn p s = .ok s') : ∃ q', Settled 2 s' q' ∧ Pids s' := by
  obtain ⟨q, hs, hpids⟩ := hs
  obtain ⟨s₂, q₂, hstep₂, hs₂, hp₂⟩ :=
    step_settled hs hpids hp.1 (legal_of_ok hs.toTidy hstep) hp.2
  have hstep₁ : step p.1 p.2 s = .ok s' := hstep
  rw [hstep₁] at hstep₂
  cases hstep₂
  exact ⟨q₂, hs₂, hp₂⟩

/-- **No PCB in use by a core is recycled** in a run of both cores that kills no
task while the other core runs it. -/
theorem cores_exclusive (cs : List (Nat × Call)) (s : State)
    (hcs : AllSteps stepOn (fun s p => p.1 < 2 ∧ KillsOwn 2 p.1 s p.2) cs initState)
    (hrun : run stepOn cs initState = .ok s) : Exclusive s := by
  have hstart : ∃ q, Settled 2 initState q ∧ Pids initState :=
    ⟨initQueues, initState_settled 2, initState_pids⟩
  obtain ⟨q, hs, _⟩ := run_invariant stepOn_settled cs initState s hstart hcs hrun
  exact hs.exclusive

instance KillsOwn.decidable (n cpu : Nat) (s : State) : ∀ c, Decidable (KillsOwn n cpu s c)
  | .kill pid _ => (inferInstance : Decidable (∀ i, findPid pid s = some i →
      ∀ c, c < n → s.coreRunning c = .task i → c = cpu))
  | .exec | .threadCreate | .exit _ | .waitpid _ _ | .sleep _ _ _ | .schedule _ | .tick _ _
  | .lockInit _ | .acquire _ _ | .release _ | .barrierInit _ _ | .barrierWait _ _
  | .barrierDestroy _ => instDecidableTrue

/-- The shell and a task it starts run on the two cores; the task is killed
after it was descheduled, and its slot is taken again. -/
theorem cores_exclusive_sample :
    ∃ s, run stepOn [(0, .tick 0 0), (0, .exec), (1, .tick 0 0), (1, .sleep 9 0 0),
      (0, .kill 2 1), (0, .exec), (1, .tick 1 1)] initState = .ok s ∧ Exclusive s := by
  obtain ⟨s, hrun, _⟩ := exists_of_returns (P := fun _ => True)
    (x := run stepOn [(0, .tick 0 0), (0, .exec), (1, .tick 0 0), (1, .sleep 9 0 0),
      (0, .kill 2 1), (0, .exec), (1, .tick 1 1)] initState) (by decide +kernel)
  exact ⟨s, hrun, cores_exclusive _ s (by decide +kernel) hrun⟩

/-- The shell on core 0 kills the task core 1 runs and starts another one: both
cores then run the same PCB. -/
theorem cores_not_exclusive_kill :
    ∃ s, run stepOn [(0, .tick 0 0), (0, .exec), (1, .tick 0 0), (0, .kill 2 0), (0, .exec),
      (0, .schedule 0)] initState = .ok s ∧ ¬ Exclusive s := by
  obtain ⟨s, hrun, h₀, h₁⟩ := exists_of_returns
    (P := fun s => s.coreRunning 0 = .task 1 ∧ s.coreRunning 1 = .task 1)
    (x := run stepOn [(0, .tick 0 0), (0, .exec), (1, .tick 0 0), (0, .kill 2 0), (0, .exec),
      (0, .schedule 0)] initState) (by decide +kernel)
  exact ⟨s, hrun, fun hex => hex.apart 1 h₀ h₁⟩

end Sched
