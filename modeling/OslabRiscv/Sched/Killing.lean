import OslabRiscv.Sched.Consistency

/-!
# Killing a process that does not exist

The search of `do_kill` takes any PCB with the pid, whatever its status.  A task
that exited keeps its pid, and a killed one has pid 0, which also owns every
mutex that is initialised and not yet taken.  So a kill of a pid that no task in
use has may still change the process table and the mutexes.
-/

namespace Sched

open IntrusiveList Outcome

/-- No task in use has the pid. -/
def NoProcess (pid : Int) (s : State) : Prop :=
  ∀ i, i < numMaxTask → Live s i → (s.pcb i).pid ≠ pid

/-- The process table, the queues and the mutexes are as before. -/
structure Untouched (s s' : State) : Prop where
  pcb : s'.pcb = s.pcb
  links : s'.links = s.links
  mlocks : s'.mlocks = s.mlocks

/-- The kill returns 0 and does nothing. -/
def KillsNothing (pid : Int) (now : Nat) (s : State) : Prop :=
  ∃ s', doKill 0 pid now s = .ok (0, s') ∧ Untouched s s'

theorem findFrom_none {P : Nat → Bool} {left k : Nat} :
    findFrom P left k = none ↔ ∀ i, k ≤ i → i < k + left → P i = false := by
  induction left generalizing k with
  | zero =>
      refine ⟨fun _ i hle hlt => ?_, fun _ => rfl⟩
      omega
  | succ left ih =>
      unfold findFrom
      by_cases hk : P k
      · rw [if_pos hk]
        constructor
        · intro hf
          cases hf
        intro hall
        rw [hall k le_rfl (by omega)] at hk
        cases hk
      · rw [if_neg hk, ih]
        refine ⟨fun hall i hle hlt => ?_, fun hall i hle hlt => hall i (by omega) (by omega)⟩
        by_cases hik : i = k
        · rw [hik]
          exact Bool.eq_false_iff.mpr hk
        · exact hall i (by omega) (by omega)

section

variable {s : State} {q : Node → List Nat} {i : Nat} {pid : Int}

/-- Nobody waits for a task that has exited. -/
theorem Settled.drained (hs : Settled 1 s q) (hi : i < numMaxTask)
    (hst : (s.pcb i).status = .exited) : drainLoop Links.next i rounds s = .ok s := by
  have hh : IsHead s (.wait i) := ⟨hi, by rw [hst]; simp⟩
  have hempty := (hs.queues.listIsEmpty hh).mpr (hs.toTidy.ended hi (fun hl => hl.1 hst)).1
  unfold rounds drainLoop
  rw [if_pos hempty]

/-- Killing pid 0 finds a task killed before, and leaves everything as it is if no
mutex has owner 0. -/
theorem kill_zero (hs : Settled 1 s q) (hfind : findPid 0 s = some i)
    (hst : (s.pcb i).status = .exited) (hown : ∀ k, k < lockNum → (s.mlocks k).owner ≠ 0)
    (now : Nat) : doKill 0 0 now s = .ok (0, s) := by
  obtain ⟨hi, hpid⟩ := findPid_lt hfind
  have hself : setPcb i { s.pcb i with pid := 0 } s = s := by
    have hpcb : ({ s.pcb i with pid := 0 } : Pcb) = s.pcb i := by rw [← hpid]
    unfold setPcb
    rw [hpcb, Function.update_eq_self]
  unfold doKill
  rw [hfind]
  change drainLoop Links.next i rounds s >>= _ = _
  rw [hs.drained hi hst]
  change releasePcbLock 0 lockNum 0 (setPcb i { s.pcb i with pid := 0 } s) >>= _ = _
  rw [hself, releasePcbLock_none lockNum 0 (by omega) hown]
  change endVictim 0 i now s = _
  unfold endVictim
  rw [hst]

/-- A mutex that changes hands gets an owner in use, or none. -/
theorem handed_owner_ne (hs : Settled 1 s q) (hp : Pids s) {s' : State} (k : Nat)
    (hpid : ∀ j, Live s j → (s'.pcb j).pid = (s.pcb j).pid) :
    (handed (fun j => (s'.pcb j).pid) (s.mlocks k) (q (.lock k))).owner ≠ 0 := by
  cases hq : q (.lock k) with
  | nil =>
      change (-1 : Int) ≠ 0
      decide
  | cons j rest =>
      have hj : j ∈ q (.lock k) := by
        rw [hq]
        exact List.mem_cons_self
      have hl := hs.toTidy.live_of_mem hj
      have hpos := hp.live j (hs.toTidy.bound _ j hj) hl
      change (s'.pcb j).pid ≠ 0
      rw [hpid j hl]
      omega

/-- When a kill of nobody does nothing. -/
theorem kill_noProcess (hs : Settled 1 s q) (hp : Pids s) (hno : NoProcess pid s) (now : Nat) :
    KillsNothing pid now s ↔
      findPid pid s = none ∨ pid = 0 ∧ ∀ k, k < lockNum → (s.mlocks k).owner ≠ 0 := by
  cases hfind : findPid pid s with
  | none =>
      refine ⟨fun _ => Or.inl rfl, fun _ => ⟨s, ?_, rfl, rfl, rfl⟩⟩
      unfold doKill
      rw [hfind]
  | some i =>
      obtain ⟨hi, hpid⟩ := findPid_lt hfind
      have hdead : ¬ Live s i := fun hl => hno i hi hl hpid
      cases hst : (s.pcb i).status with
      | blocked => exact absurd ⟨by rw [hst]; simp, by rw [hst]; simp⟩ hdead
      | running => exact absurd ⟨by rw [hst]; simp, by rw [hst]; simp⟩ hdead
      | ready => exact absurd ⟨by rw [hst]; simp, by rw [hst]; simp⟩ hdead
      | available =>
          constructor
          · rintro ⟨s', hkill, _⟩
            unfold doKill at hkill
            rw [hfind] at hkill
            simp only [drainLoop_available hs.toTidy hst] at hkill
            cases hkill
          · rintro (h | ⟨hzero, _⟩)
            · cases h
            · have hneg := hp.available i hi hst
              omega
      | exited =>
          constructor
          · rintro ⟨s', hkill, hun⟩
            right
            obtain ⟨r, s₁, q₁, hkill₁, _, he⟩ := doKill_spec hs (by omega) hfind hi
              (by rw [hst]; simp) (fun c hc _ => Nat.lt_one_iff.mp hc) now
            rw [hkill₁] at hkill
            cases hkill
            -- the slot has pid 0 now, and had it before
            have hzero : pid = 0 := by
              rw [← hpid, ← he.pid_self, hun.pcb]
            refine ⟨hzero, fun k hk hown => ?_⟩
            have hgone := (he.owned k hk (hown.trans hzero.symm)).1
            have hsame : ∀ j, Live s j → (s'.pcb j).pid = (s.pcb j).pid :=
              fun j hl => he.pid j fun hji => hdead (hji ▸ hl)
            have hne := handed_owner_ne hs hp k hsame
            rw [← hgone, hun.mlocks] at hne
            exact hne hown
          · rintro (h | ⟨hzero, hown⟩)
            · cases h
            · subst hzero
              exact ⟨s, kill_zero hs hfind hst hown now, rfl, rfl, rfl⟩

end

theorem findPid_none {pid : Int} {s : State} :
    findPid pid s = none ↔ ∀ i, i < numMaxTask → (s.pcb i).pid ≠ pid := by
  unfold findPid
  rw [findFrom_none]
  constructor
  · intro hall i hi
    exact of_decide_eq_false (hall i (Nat.zero_le i) (by omega))
  · intro hall i _ hi
    exact decide_eq_false (hall i (by omega))

/-- A state that a run of kernel entries on one core leads to is settled. -/
theorem settled_of_run {cs : List Call} {s : State} (hrun : run (step 0) cs initState = .ok s) :
    ∃ q, Settled 1 s q ∧ Pids s := by
  have hstep : ∀ (s : State) (c : Call) (s' : State), (∃ q, Settled 1 s q ∧ Pids s) → True →
      step 0 c s = .ok s' → ∃ q, Settled 1 s' q ∧ Pids s' := by
    rintro s c s' ⟨q, hs, hp⟩ _ hok
    obtain ⟨s₁, q₁, hok₁, hs₁, hp₁⟩ :=
      step_settled hs hp (by omega) (legal_of_ok hs.toTidy hok) (killsOwn_single s c)
    rw [hok] at hok₁
    cases hok₁
    exact ⟨q₁, hs₁, hp₁⟩
  exact run_invariant hstep cs _ _ ⟨initQueues, initState_settled 1, initState_pids⟩
    (allSteps_true cs _) hrun

/-- **Killing nobody.**  In every state reached on one core, for a pid that no task
in use has, `do_kill` returns 0 and changes nothing exactly if no PCB has the pid
at all, or it is 0 and no mutex has owner 0. -/
theorem kill_nobody_iff {cs : List Call} {s : State} (hrun : run (step 0) cs initState = .ok s)
    {pid : Int} (hno : NoProcess pid s) (now : Nat) :
    KillsNothing pid now s ↔ (∀ i, i < numMaxTask → (s.pcb i).pid ≠ pid) ∨
      pid = 0 ∧ ∀ k, k < lockNum → (s.mlocks k).owner ≠ 0 := by
  obtain ⟨q, hs, hp⟩ := settled_of_run hrun
  rw [kill_noProcess hs hp hno, findPid_none]

instance (pid : Int) (s : State) : Decidable (NoProcess pid s) :=
  inferInstanceAs (Decidable (∀ i, i < numMaxTask → (_ ∧ _) → _))

/-- After the shell was killed by another task, pid 0 is in the table and no mutex
has owner 0. -/
theorem kill_nobody_zero : ∃ s, run (step 0) [.tick 0 0, .exec, .tick 1 1, .kill 1 2] initState =
      .ok s ∧ KillsNothing 0 3 s := by
  obtain ⟨s, hrun, hno, hlocks⟩ := exists_of_returns
    (P := fun s => NoProcess 0 s ∧ ∀ k, k < lockNum → (s.mlocks k).owner ≠ 0)
    (x := run (step 0) [.tick 0 0, .exec, .tick 1 1, .kill 1 2] initState) (by decide +kernel)
  exact ⟨s, hrun, (kill_nobody_iff hrun hno 3).mpr (Or.inr ⟨rfl, hlocks⟩)⟩

/-- A task exits and keeps its pid 2.  A kill of it overwrites the pid, and hands over the
mutex that the task still owned. -/
theorem kill_exited_touches :
    ∃ s, run (step 0) [.tick 0 0, .exec, .tick 1 1, .acquire 0 1, .exit 2] initState = .ok s ∧
      NoProcess 2 s ∧ ¬ KillsNothing 2 3 s := by
  obtain ⟨s, hrun, hno, hkill⟩ := exists_of_returns
    (P := fun s => NoProcess 2 s ∧ returns (fun p => (p.2.mlocks 0).owner ≠ (s.mlocks 0).owner)
      (doKill 0 2 3 s) = true)
    (x := run (step 0) [.tick 0 0, .exec, .tick 1 1, .acquire 0 1, .exit 2] initState)
    (by decide +kernel)
  refine ⟨s, hrun, hno, ?_⟩
  rintro ⟨s', hs', hun⟩
  rw [hs'] at hkill
  have hne : (s'.mlocks 0).owner ≠ (s.mlocks 0).owner := of_decide_eq_true hkill
  rw [hun.mlocks] at hne
  exact hne rfl

end Sched
