import OslabRiscv.Sched.Consistency

/-!
# Mutexes and the tasks that own them

`LockStep` says what one kernel entry does to the mutexes: which table entry
changes, who enters or leaves which queue, and which task starts or ends.  What
holds of the mutexes is then a case analysis over it.

A mutex is owned by a pid.  `do_exit` does not hand over the mutexes of the
task, and `do_kill` may hand one to its own victim, whose pid is 0 by then; in
all other runs a locked mutex has a live owner.
-/

namespace Sched

open IntrusiveList Outcome

/-- What a kernel entry on core 0 does to the mutexes. -/
inductive LockStep (s : State) (q : Node → List Nat) (s' : State) (q' : Node → List Nat) :
    Call → Prop
  | other {c : Call} (htasks : SameTasks s s') (hm : s'.mlocks = s.mlocks)
      (hq : ∀ k, q' (.lock k) = q (.lock k)) (hrel : ∀ k, c ≠ .release k)
      (hacq : ∀ k now, c ≠ .acquire k now) : LockStep s q s' q' c
  | start {c : Call} {i : Nat} {pid : Int} (hstart : Starts i pid s q s' q')
      (hpid : (c = .exec ∧ pid = s.processId ∧ s'.processId = s.processId + 1) ∨
        (c = .threadCreate ∧ s'.processId = s.processId)) : LockStep s q s' q' c
  | init {key : Int} {k : Nat} (hk : k < lockNum) (hfree : (s.mlocks k).owner = -1)
      (hs : s' = setLock k ⟨false, 0, key⟩ s) (hq : q' = q) : LockStep s q s' q' (.lockInit key)
  | take {k now i : Nat} (hk : k < lockNum) (hcur : s.coreRunning 0 = .task i)
      (hfree : (s.mlocks k).locked = false)
      (hs : s' = setLock k { s.mlocks k with locked := true, owner := (s.pcb i).pid } s)
      (hq : q' = q) : LockStep s q s' q' (.acquire k now)
  | wait {k now i : Nat} (hk : k < lockNum) (hcur : s.coreRunning 0 = .task i)
      (hheld : (s.mlocks k).locked = true) (htasks : SameTasks s s') (hm : s'.mlocks = s.mlocks)
      (hq : q' (.lock k) = q (.lock k) ++ [i])
      (hother : ∀ m, m ≠ k → q' (.lock m) = q (.lock m)) : LockStep s q s' q' (.acquire k now)
  | release {k i : Nat} (hk : k < lockNum) (hcur : s.coreRunning 0 = .task i)
      (htasks : SameTasks s s')
      (hm : s'.mlocks = Function.update s.mlocks k
        (handed (fun j => (s.pcb j).pid) (s.mlocks k) (q (.lock k))))
      (hq : q' (.lock k) = (q (.lock k)).tail)
      (hother : ∀ m, m ≠ k → q' (.lock m) = q (.lock m)) : LockStep s q s' q' (.release k)
  | exit {i now : Nat} (hcur : s.coreRunning 0 = .task i) (hends : Ends i s q s' q')
      (hpid : (s'.pcb i).pid = (s.pcb i).pid) (hm : s'.mlocks = s.mlocks)
      (hq : ∀ k, q' (.lock k) = q (.lock k)) : LockStep s q s' q' (.exit now)
  | kill {i now : Nat} {pid : Int} (hfind : findPid pid s = some i)
      (hkill : Killed i pid s q s' q') : LockStep s q s' q' (.kill pid now)

section

variable {s s' : State} {q q' : Node → List Nat} {c : Call}

theorem lockInitLoop_some {key : Int} {left k m : Nat} {found : Bool}
    (h : lockInitLoop s key left k = some (m, found)) :
    k ≤ m ∧ m < k + left ∧
      if found then (s.mlocks m).key = key
      else (s.mlocks m).owner = -1 ∧ (s.mlocks m).key ≠ key := by
  induction left generalizing k with
  | zero => cases h
  | succ left ih =>
      unfold lockInitLoop at h
      by_cases hkey : (s.mlocks k).key = key
      · rw [if_pos hkey] at h
        cases h
        exact ⟨le_refl _, by omega, hkey⟩
      · rw [if_neg hkey] at h
        by_cases hown : (s.mlocks k).owner = -1
        · rw [if_pos hown] at h
          cases h
          exact ⟨le_refl _, by omega, hown, hkey⟩
        · rw [if_neg hown] at h
          obtain ⟨h₁, h₂, h₃⟩ := ih h
          exact ⟨by omega, by omega, h₃⟩

/-- **The mutexes' view of a kernel entry.** -/
theorem CallEffect.lockStep (he : CallEffect 0 s q s' q' c) : LockStep s q s' q' c := by
  cases he with
  | exec starts next => exact .start starts (Or.inl ⟨rfl, rfl, next⟩)
  | threadCreate cur starts next => exact .start starts (Or.inr ⟨rfl, next⟩)
  | exit cur free ends pid mlocks locks => exact .exit cur ends pid mlocks locks
  | killNobody none same queues =>
      subst same
      subst queues
      exact .other .refl rfl (fun _ => rfl) (by simp) (by simp)
  | kill find killed => exact .kill find killed
  | moves which tasks mlocks barriers locks waits =>
      refine .other tasks mlocks locks (fun k hc => ?_) (fun k now hc => ?_)
      · subst hc
        cases which
      · subst hc
        cases which
  | @lockInit key k found find same queues =>
      subst same
      subst queues
      obtain ⟨_, hlt, hfound⟩ := lockInitLoop_some find
      cases found with
      | true => exact .other .refl rfl (fun _ => rfl) (by simp) (by simp)
      | false => exact .init (by omega) hfound.1 rfl rfl
  | take lt cur free same queues => exact .take lt cur free same queues
  | wait lt cur held quiet =>
      refine .wait lt cur held quiet.sameTasks quiet.mlocks ?_ fun m hm => ?_
      · rw [quiet.queues _ (by simp), Function.update_self]
      · rw [quiet.queues _ (by simp)]
        exact Function.update_of_ne (by simp [hm]) _ _
  | release lt cur wakes mlocks queue =>
      exact .release lt cur ⟨wakes.pid, wakes.live, wakes.processId⟩ mlocks queue
        fun m hm => wakes.queues _ (by simp [hm])
  | barrierInit same queues =>
      subst same
      subst queues
      rcases doBarrierInit_cases _ _ s with heq | ⟨k, b, heq⟩
      · rw [heq]
        exact .other .refl rfl (fun _ => rfl) (by simp) (by simp)
      · rw [heq]
        exact .other (.of_pcb rfl rfl) rfl (fun _ => rfl) (by simp) (by simp)
  | barrierWait lt tasks mlocks locks other self =>
      exact .other tasks mlocks locks (by simp) (by simp)
  | barrierDestroy same queues =>
      subst queues
      rcases same with same | same
      · subst same
        exact .other .refl rfl (fun _ => rfl) (by simp) (by simp)
      · subst same
        exact .other (.of_pcb rfl rfl) rfl (fun _ => rfl) (by simp) (by simp)

theorem step_lockStep (hs : Settled 1 s q) (hp : Pids s) (hstep : step 0 c s = .ok s') :
    ∃ q', Settled 1 s' q' ∧ Pids s' ∧ LockStep s q s' q' c := by
  obtain ⟨q', hs', hp', he⟩ := step_effect hs hp (by omega) (killsOwn_single s c) hstep
  exact ⟨q', hs', hp', he.lockStep⟩

end

/-! ## Owners -/

/-- Every locked mutex is owned by the pid of a task in use. -/
def Owned (s : State) : Prop :=
  ∀ k, k < lockNum → (s.mlocks k).locked = true →
    ∃ j, j < numMaxTask ∧ Live s j ∧ (s.pcb j).pid = (s.mlocks k).owner

/-- The task that exits owns no mutex, and the task that is killed is not the
first to wait for a mutex it owns itself. -/
def KeepsOwners (s : State) : Call → Prop
  | .exit _ => ∀ k, k < lockNum → (s.mlocks k).locked = true →
      ∀ i, s.coreRunning 0 = .task i → (s.mlocks k).owner ≠ (s.pcb i).pid
  | .kill pid _ => ∀ k, k < lockNum → (s.mlocks k).locked = true → (s.mlocks k).owner = pid →
      ∀ i, findPid pid s = some i → (queued (.lock k) s).head? ≠ some i
  | _ => True

section

variable {s s' : State} {q q' : Node → List Nat} {c : Call}

/-- A mutex that was not handed over keeps its owner, who has not ended. -/
theorem Owned.keep (ho : Owned s) {k : Nat} (hk : k < lockNum)
    (hm : s'.mlocks k = s.mlocks k) (hl : (s'.mlocks k).locked = true)
    (hkeep : ∀ j, Live s j → (s.pcb j).pid = (s.mlocks k).owner →
      Live s' j ∧ (s'.pcb j).pid = (s.pcb j).pid) :
    ∃ j, j < numMaxTask ∧ Live s' j ∧ (s'.pcb j).pid = (s'.mlocks k).owner := by
  rw [hm] at hl ⊢
  obtain ⟨j, hj, hlive, hpid⟩ := ho k hk hl
  obtain ⟨hlive', hpid'⟩ := hkeep j hlive hpid
  exact ⟨j, hj, hlive', hpid'.trans hpid⟩

/-- A mutex that was handed over belongs to the first waiter. -/
theorem handed_owner {pid : Nat → Int} {m : MutexLock} {l : List Nat}
    (hl : (handed pid m l).locked = true) : ∃ j rest, l = j :: rest ∧
      (handed pid m l).owner = pid j := by
  cases l with
  | nil => cases hl
  | cons j rest => exact ⟨j, rest, rfl, rfl⟩

theorem Owned.step (ho : Owned s) (hs : Settled 1 s q) (hc : KeepsOwners s c)
    (hl : LockStep s q s' q' c) : Owned s' := by
  have hwaiter : ∀ k j rest, q (.lock k) = j :: rest → j < numMaxTask ∧ Live s j := by
    intro k j rest heq
    have hmem : j ∈ q (.lock k) := heq ▸ List.mem_cons_self
    exact ⟨hs.bound _ j hmem, hs.toTidy.live_of_mem hmem⟩
  intro k hk hlocked
  cases hl with
  | other htasks hm hq _ _ =>
      exact ho.keep hk (by rw [hm]) hlocked (fun j hj _ => ⟨(htasks.live j).mpr hj, htasks.pid j⟩)
  | @start _ i pid hst _ =>
      refine ho.keep hk (by rw [hst.mlocks]) hlocked (fun j hj _ => ?_)
      obtain ⟨mask, hpcb⟩ := hst.pcb
      have hji : j ≠ i := fun heq => hst.slot.2 (heq ▸ hj)
      have hsame : s'.pcb j = s.pcb j := by rw [hpcb, Function.update_of_ne hji]
      unfold Live
      rw [hsame]
      exact ⟨hj, rfl⟩
  | @init key m hk' hfree hs' _ =>
      subst hs'
      by_cases hkm : k = m
      · subst hkm
        change (Function.update s.mlocks k _ k).locked = true at hlocked
        rw [Function.update_self] at hlocked
        cases hlocked
      · exact ho.keep hk (Function.update_of_ne hkm _ _) hlocked (fun j hj _ => ⟨hj, rfl⟩)
  | @take m now i hk' hcur hfree hs' _ =>
      subst hs'
      by_cases hkm : k = m
      · subst hkm
        obtain ⟨hi, hrun, _⟩ := hs.current (by omega) hcur
        refine ⟨i, hi, live_of_running hrun, ?_⟩
        change _ = (Function.update s.mlocks k _ k).owner
        rw [Function.update_self]
        rfl
      · exact ho.keep hk (Function.update_of_ne hkm _ _) hlocked (fun j hj _ => ⟨hj, rfl⟩)
  | wait hk' hcur hheld htasks hm _ _ =>
      exact ho.keep hk (by rw [hm]) hlocked (fun j hj _ => ⟨(htasks.live j).mpr hj, htasks.pid j⟩)
  | @release m i hk' hcur htasks hm hq hother =>
      by_cases hkm : k = m
      · subst hkm
        rw [hm, Function.update_self] at hlocked ⊢
        obtain ⟨j, rest, heq, hown⟩ := handed_owner hlocked
        obtain ⟨hj, hlive⟩ := hwaiter k j rest heq
        exact ⟨j, hj, (htasks.live j).mpr hlive, (htasks.pid j).trans hown.symm⟩
      · exact ho.keep hk (by rw [hm, Function.update_of_ne hkm]) hlocked
          (fun j hj _ => ⟨(htasks.live j).mpr hj, htasks.pid j⟩)
  | @exit i now hcur hends hpid hm hq =>
      refine ho.keep hk (by rw [hm]) hlocked (fun j hj hown => ?_)
      rw [hm] at hlocked
      have hji : j ≠ i := by
        intro heq
        rw [heq] at hown
        exact hc k hk hlocked i hcur hown.symm
      exact ⟨(hends.live j hji).mpr hj, hends.pid j hji⟩
  | @kill i now pid hfind hkill =>
      by_cases hown : (s.mlocks k).owner = pid
      · obtain ⟨hm, _⟩ := hkill.owned k hk hown
        rw [hm] at hlocked ⊢
        obtain ⟨j, rest, heq, howner⟩ := handed_owner hlocked
        obtain ⟨hj, hlive⟩ := hwaiter k j rest heq
        have hji : j ≠ i := by
          intro hji
          have hlk : (s.mlocks k).locked = true := by
            rw [heq] at hlocked
            exact hlocked
          refine hc k hk hlk hown i hfind ?_
          rw [hs.toTidy.queued_eq (h := .lock k) hk, heq, hji]
          rfl
        exact ⟨j, hj, (hkill.live j hji).mpr hlive, howner.symm⟩
      · obtain ⟨hm, _⟩ := hkill.other k hk hown
        refine ho.keep hk hm hlocked (fun j hj hpid => ?_)
        have hji : j ≠ i := by
          intro heq
          rw [heq, (findPid_lt hfind).2] at hpid
          exact hown hpid.symm
        exact ⟨(hkill.live j hji).mpr hj, hkill.pid j hji⟩

end

/-- **Mutexes have live owners** in every run in which no task exits with a mutex
or is killed in front of the queue of its own one. -/
theorem locked_owned (cs : List Call) (s : State)
    (hcs : AllSteps (step 0) KeepsOwners cs initState)
    (hrun : run (step 0) cs initState = .ok s) : Owned s := by
  have hstart : ∃ q, Settled 1 initState q ∧ Pids initState ∧ Owned initState :=
    ⟨initQueues, initState_settled 1, initState_pids, fun k _ hl => by cases hl⟩
  have hinv : ∀ s c s', (∃ q, Settled 1 s q ∧ Pids s ∧ Owned s) → KeepsOwners s c →
      step 0 c s = .ok s' → ∃ q', Settled 1 s' q' ∧ Pids s' ∧ Owned s' := by
    intro s c s' hI hc hstep
    obtain ⟨q, hs, hp, ho⟩ := hI
    obtain ⟨q', hs', hp', hl⟩ := step_lockStep hs hp hstep
    exact ⟨q', hs', hp', ho.step hs hc hl⟩
  obtain ⟨_, _, _, ho⟩ := run_invariant hinv cs initState s hstart hcs hrun
  exact ho

instance KeepsOwners.decidable (s : State) : ∀ c, Decidable (KeepsOwners s c)
  | .exit _ => (inferInstance : Decidable (∀ k, k < lockNum → (s.mlocks k).locked = true →
      ∀ i, s.coreRunning 0 = .task i → (s.mlocks k).owner ≠ (s.pcb i).pid))
  | .kill pid _ => (inferInstance : Decidable (∀ k, k < lockNum → (s.mlocks k).locked = true →
      (s.mlocks k).owner = pid → ∀ i, findPid pid s = some i →
        (queued (.lock k) s).head? ≠ some i))
  | .exec | .threadCreate | .waitpid _ _ | .sleep _ _ _ | .schedule _ | .tick _ _ | .lockInit _
  | .acquire _ _ | .release _ | .barrierInit _ _ | .barrierWait _ _ | .barrierDestroy _ => instDecidableTrue

/-- A task killed while it owns a mutex hands it to the task that waits. -/
theorem locked_owned_handover :
    ∃ s, run (step 0) [.tick 0 0, .exec, .exec, .waitpid 2 0, .acquire 0 0, .tick 1 1,
      .acquire 0 1, .kill 2 1] initState = .ok s ∧ Owned s := by
  obtain ⟨s, hrun, _⟩ := exists_of_returns (P := fun _ => True)
    (x := run (step 0) [.tick 0 0, .exec, .exec, .waitpid 2 0, .acquire 0 0, .tick 1 1,
      .acquire 0 1, .kill 2 1] initState) (by decide +kernel)
  exact ⟨s, hrun, locked_owned _ s (by decide +kernel) hrun⟩

/-- The shell starts a task that takes a mutex and exits. -/
theorem locked_not_owned_exit :
    ∃ s, run (step 0) [.tick 0 0, .exec, .schedule 0, .lockInit 7, .acquire 0 0, .exit 1]
      initState = .ok s ∧ ¬ Owned s := by
  obtain ⟨s, hrun, hl, hnone⟩ := exists_of_returns
    (P := fun s => (s.mlocks 0).locked = true ∧ ∀ j, j < numMaxTask →
      (s.pcb j).pid = (s.mlocks 0).owner → (s.pcb j).status = .exited)
    (x := run (step 0) [.tick 0 0, .exec, .schedule 0, .lockInit 7, .acquire 0 0, .exit 1]
      initState) (by decide +kernel)
  refine ⟨s, hrun, fun ho => ?_⟩
  obtain ⟨j, hj, hlive, hpid⟩ := ho 0 (by decide) hl
  exact hlive.1 (hnone j hj hpid)

end Sched
