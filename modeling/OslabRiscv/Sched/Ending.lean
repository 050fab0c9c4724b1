import OslabRiscv.Sched.Processes

/-!
# Mutexes, barriers, and the end of a task

Handing over a mutex, the exit and the killing of a task, and waiting for one.
A kill first wakes the tasks waiting for the victim, then overwrites its pid,
hands over the mutexes the old pid owns and only then takes the victim out of
the queue it is in, which one of the steps before may have changed.
-/

namespace Sched

open IntrusiveList

variable {n cpu : Nat} {s : State} {q : Node → List Nat} {h : Node} {i : Nat}

/-! ## Mutexes -/

/-- The mutex after a release: the first waiter gets it. -/
def handed (pid : Nat → Int) (m : MutexLock) : List Nat → MutexLock
  | [] => { m with locked := false, owner := -1 }
  | j :: _ => { m with owner := pid j }

/-- `do_mutex_lock_release`, whoever calls it. -/
theorem doMutexLockRelease_spec {k : Nat} (ht : Tidy n s q) (hk : k < lockNum) :
    ∃ s' q', doMutexLockRelease k s = .ok s' ∧ Tidy n s' q' ∧
      Wakes [.ready, .lock k] s q { s' with mlocks := s.mlocks } q' ∧
      s'.mlocks = Function.update s.mlocks k
        (handed (fun j => (s.pcb j).pid) (s.mlocks k) (q (.lock k))) ∧
      q' (.lock k) = (q (.lock k)).tail := by
  have hh : IsHead s (.lock k) := hk
  unfold doMutexLockRelease
  rw [if_neg (by omega)]
  by_cases hempty : listIsEmpty (.lock k) s.links
  · have hnil := (ht.queues.listIsEmpty hh).mp hempty
    rw [if_pos hempty]
    refine ⟨_, q, rfl, ht.congr rfl (fun _ => rfl) rfl, Wakes.refl, ?_, ?_⟩
    · rw [hnil]
      rfl
    · rw [hnil]
      rfl
  · rw [if_neg hempty]
    have hne : q (.lock k) ≠ [] := fun heq => hempty ((ht.queues.listIsEmpty hh).mpr heq)
    obtain ⟨j, rest, hj⟩ := List.exists_cons_of_ne_nil hne
    have hnext : s.links.next (.lock k) = some (.task j) := by
      rw [ht.queues.next_head hh, hj]
      rfl
    rw [hnext]
    have ht₁ : Tidy n (setLock k { s.mlocks k with owner := (s.pcb j).pid } s) q :=
      ht.congr rfl (fun _ => rfl) rfl
    obtain ⟨s', hub, ht', hw, hrest⟩ := ht₁.doUnblock hj (by simp)
    refine ⟨s', _, hub, ht', ?_, ?_, ?_⟩
    · exact ⟨⟨hw.queues, hw.pid, hw.status, hw.processId, rfl, hw.barriers⟩, hw.core, hw.running⟩
    · rw [hj, hw.mlocks]
      rfl
    · rw [hj, hrest]
      rfl

/-- The queues of the mutexes. -/
def lockQueues : List Node := (List.range lockNum).map Node.lock

theorem mem_lockQueues {k : Nat} (hk : k < lockNum) : Node.lock k ∈ lockQueues :=
  List.mem_map_of_mem (List.mem_range.mpr hk)

/-- `release_pcb_lock` hands over the mutexes that the pid owns. -/
theorem releasePcbLock_spec (pid : Int) :
    ∀ (left k : Nat) (s : State) (q : Node → List Nat), Tidy n s q → k + left ≤ lockNum →
      ∃ s' q', releasePcbLock pid left k s = .ok s' ∧ Tidy n s' q' ∧
        Wakes (.ready :: lockQueues) s q { s' with mlocks := s.mlocks } q' ∧
        ∀ m, (k ≤ m → m < k + left → (s.mlocks m).owner = pid →
            s'.mlocks m = handed (fun j => (s.pcb j).pid) (s.mlocks m) (q (.lock m)) ∧
            q' (.lock m) = (q (.lock m)).tail) ∧
          (m < k ∨ k + left ≤ m ∨ (s.mlocks m).owner ≠ pid →
            s'.mlocks m = s.mlocks m ∧ q' (.lock m) = q (.lock m)) := by
  intro left
  induction left with
  | zero =>
      intro k s q ht _
      exact ⟨s, q, rfl, ht, Wakes.refl, fun m => ⟨fun _ _ _ => by omega, fun _ => ⟨rfl, rfl⟩⟩⟩
  | succ left ih =>
      intro k s q ht hle
      unfold releasePcbLock
      by_cases hown : (s.mlocks k).owner = pid
      · rw [if_pos hown]
        obtain ⟨s₁, q₁, hrel, ht₁, hw₁, hm₁, hq₁⟩ := doMutexLockRelease_spec ht (by omega : k < _)
        obtain ⟨s', q', hrun, ht', hw', hall⟩ := ih (k + 1) s₁ q₁ ht₁ (by omega)
        have hsame : ∀ m, m ≠ k → s₁.mlocks m = s.mlocks m ∧ q₁ (.lock m) = q (.lock m) := by
          intro m hm
          refine ⟨by rw [hm₁, Function.update_of_ne hm], hw₁.queues _ ?_⟩
          simp [hm]
        have hpid : (fun j => (s₁.pcb j).pid) = fun j => (s.pcb j).pid := by
          funext j
          exact hw₁.pid j
        refine ⟨s', q', ?_, ht', ?_, ?_⟩
        · rw [hrel]
          exact hrun
        · have hw₂ : Wakes (.ready :: lockQueues) s q { s₁ with mlocks := s.mlocks } q₁ := by
            refine ⟨hw₁.toQuiet.mono ?_, hw₁.core, hw₁.running⟩
            intro b hb
            rw [List.mem_cons, List.mem_singleton] at hb
            rcases hb with hb | hb
            · exact hb ▸ List.mem_cons_self
            · exact hb ▸ List.mem_cons_of_mem _ (mem_lockQueues (by omega))
          have hw₃ : Wakes (.ready :: lockQueues) { s₁ with mlocks := s.mlocks } q₁
              { s' with mlocks := s.mlocks } q' :=
            ⟨⟨hw'.queues, hw'.pid, hw'.status, hw'.processId, rfl, hw'.barriers⟩, hw'.core,
              hw'.running⟩
          exact hw₂.trans hw₃
        · intro m
          by_cases hmk : m = k
          · subst hmk
            have hkeep := (hall m).2 (Or.inl (by omega))
            refine ⟨fun _ _ _ => ?_, fun hcon => ?_⟩
            · rw [hkeep.1, hkeep.2, hm₁, Function.update_self]
              exact ⟨rfl, hq₁⟩
            · rcases hcon with hcon | hcon | hcon
              · omega
              · omega
              · exact absurd hown hcon
          · obtain ⟨hmm, hqm⟩ := hsame m hmk
            obtain ⟨hdo, hkeep⟩ := hall m
            rw [hmm, hqm, hpid] at hdo
            rw [hmm, hqm] at hkeep
            refine ⟨fun h₁ h₂ h₃ => hdo (by omega) (by omega) h₃, fun hcon => hkeep ?_⟩
            rcases hcon with hcon | hcon | hcon
            · exact Or.inl (by omega)
            · exact Or.inr (Or.inl (by omega))
            · exact Or.inr (Or.inr hcon)
      · rw [if_neg hown]
        obtain ⟨s', q', hrun, ht', hw', hall⟩ := ih (k + 1) s q ht (by omega)
        refine ⟨s', q', hrun, ht', hw', fun m => ?_⟩
        obtain ⟨hdo, hkeep⟩ := hall m
        refine ⟨fun h₁ h₂ h₃ => ?_, fun hcon => hkeep ?_⟩
        · have hmk : m ≠ k := fun heq => hown (heq ▸ h₃)
          exact hdo (by omega) (by omega) h₃
        · by_cases hmk : m = k
          · exact Or.inl (by omega)
          · rcases hcon with hcon | hcon | hcon
            · exact Or.inl (by omega)
            · exact Or.inr (Or.inl (by omega))
            · exact Or.inr (Or.inr hcon)

/-- Without a mutex of the pid there is nothing to hand over. -/
theorem releasePcbLock_none {pid : Int} {s : State} (left k : Nat) (hk : k + left ≤ lockNum)
    (h : ∀ k < lockNum, (s.mlocks k).owner ≠ pid) : releasePcbLock pid left k s = .ok s := by
  induction left generalizing k with
  | zero => rfl
  | succ left ih =>
      unfold releasePcbLock
      rw [if_neg (h k (by omega))]
      exact ih (k + 1) (by omega)

/-! ## Ending a task -/

/-- PCB `i` has ended and left the queues of the barriers; no other PCB started,
ended or changed its pid. -/
structure Ends (i : Nat) (s : State) (q : Node → List Nat) (s' : State)
    (q' : Node → List Nat) : Prop where
  self : (s'.pcb i).status = .exited
  pid : ∀ j, j ≠ i → (s'.pcb j).pid = (s.pcb j).pid
  live : ∀ j, j ≠ i → (Live s' j ↔ Live s j)
  available : ∀ j, (s'.pcb j).status = .available → (s.pcb j).status = .available
  processId : s'.processId = s.processId
  barriers : s'.barriers = s.barriers
  queues : ∀ k, q' (.barrier k) = (q (.barrier k)).erase i

/-- A task that ends leaves the pids of the others. -/
theorem Ends.pids {s' : State} {q' : Node → List Nat} (he : Ends i s q s' q') (hp : Pids s) :
    Pids s' := by
  have hne : ∀ j, Live s' j ∨ (s'.pcb j).status = .available → j ≠ i := by
    intro j hj heq
    rw [heq] at hj
    rcases hj with hj | hj
    · exact hj.1 he.self
    · rw [he.self] at hj
      cases hj
  refine ⟨?_, ?_, ?_⟩
  · rw [he.processId]
    exact hp.fresh
  · intro j hj hl
    have hji := hne j (Or.inl hl)
    rw [he.pid j hji]
    exact hp.live j hj ((he.live j hji).mp hl)
  · intro j hj hav
    rw [he.pid j (hne j (Or.inr hav))]
    exact hp.available j hj (he.available j hav)

theorem Quiet.available {E : List Node} {s' : State} {q' : Node → List Nat}
    (hw : Quiet E s q s' q') (j : Nat) :
    (s'.pcb j).status = .available ↔ (s.pcb j).status = .available := by
  constructor
  · intro hav
    exact (hw.status j (Or.inr (Or.inr (Or.inr hav)))).symm.trans hav
  · intro hav
    exact (hw.status j (Or.inr (Or.inl hav))).trans hav

theorem live_setStatus_of_ne {st : Status} {j : Nat} (hj : j ≠ i) :
    Live (setStatus i st s) j ↔ Live s j := by
  unfold Live
  rw [setStatus_pcb_of_ne hj]

/-- The task, marked exited, gives up its core. -/
theorem leave_spec (ht : Tidy n s q) (hcpu : cpu < n) (hcur : s.coreRunning cpu = .task i)
    (hb : Busy (· < n) s) (hwait : q (.wait i) = []) (now : Nat) :
    ∃ s' q', doScheduler cpu now (setStatus i .exited s) = .ok s' ∧ Settled n s' q' ∧
      Quiet [.ready, .sleep] (setStatus i .exited s) q s' q' := by
  have hi := ht.core cpu i hcpu hcur
  have hrun := hb cpu i hcpu hcur
  have hfree := (ht.running hi hrun).2
  have hdrop := ht.drop hi (live_of_running hrun).2 hwait
  rw [ht.queues.del_free hfree] at hdrop
  have hq : (fun b => (q b).erase i) = q := by
    funext b
    exact List.erase_of_not_mem (hfree b)
  rw [hq] at hdrop
  refine doScheduler_spec hdrop hcpu ?_ ?_ now
  · intro c j hc hcj
    have hji : j ≠ i := by
      intro heq
      rw [heq] at hcj
      exact hc.2 (ht.apart c cpu i hc.1 hcpu hcj hcur)
    rw [setStatus_pcb_of_ne hji]
    exact hb c j hc.1 hcj
  · intro j hj hst
    have hj' : s.coreRunning cpu = .task j := hj
    rw [hcur] at hj'
    cases hj'
    rw [setStatus_pcb_self] at hst
    cases hst

/-- `do_exit` wakes the waiters of the task, frees its slot and switches. -/
theorem doExit_spec (hs : Settled n s q) (hcpu : cpu < n) (hcur : s.coreRunning cpu = .task i)
    (now : Nat) :
    ∃ s' q', doExit cpu now s = .ok s' ∧ Settled n s' q' ∧ Ends i s q s' q' ∧
      (s'.pcb i).pid = (s.pcb i).pid ∧ s'.mlocks = s.mlocks ∧
      ∀ k, q' (.lock k) = q (.lock k) := by
  obtain ⟨hi, hrun, hfree⟩ := hs.current hcpu hcur
  obtain ⟨s₁, q₁, hdrain, ht₁, hw₁, hnil⟩ :=
    drainLoop_prev hs.toTidy hi (live_of_running hrun).2
  have hrun₁ := (hw₁.running i).mpr hrun
  have hb₁ : Busy (· < n) s₁ := hs.busy.congr (fun j hj => (hw₁.running j).mpr hj) hw₁.core
  have hcur₁ : s₁.coreRunning cpu = .task i := by
    rw [hw₁.core]
    exact hcur
  obtain ⟨s', q', hsched, hs', hw'⟩ := leave_spec ht₁ hcpu hcur₁ hb₁ hnil now
  have hst : (s'.pcb i).status = .exited := by
    have hex := setStatus_pcb_self (s := s₁) i .exited
    exact (hw'.status i (Or.inl hex)).trans hex
  have hpid : ∀ j, (s'.pcb j).pid = (s.pcb j).pid := by
    intro j
    rw [hw'.pid j, setStatus_pid, hw₁.pid j]
  refine ⟨s', q', ?_, hs', ⟨hst, fun j _ => hpid j, ?_, ?_, ?_, ?_, ?_⟩, hpid i, ?_, ?_⟩
  · unfold doExit current
    rw [hcur]
    change drainLoop Links.prev i rounds s >>= _ = _
    rw [hdrain]
    change doScheduler cpu now (setStatus i .exited (delQueue i s₁)) = _
    rw [ht₁.queues.del_free (ht₁.running hi hrun₁).2]
    exact hsched
  · intro j hj
    rw [hw'.live j, live_setStatus_of_ne hj, hw₁.live j]
  · intro j hav
    have hav₁ := (hw'.available j).mp hav
    rw [setStatus_available (by simp) (live_of_running hrun₁).2] at hav₁
    exact (hw₁.available j).mp hav₁
  · exact hw'.processId.trans hw₁.processId
  · exact hw'.barriers.trans hw₁.barriers
  · intro k
    rw [hw'.queues _ (by simp), hw₁.queues _ (by simp), List.erase_of_not_mem (hfree _)]
  · exact hw'.mlocks.trans hw₁.mlocks
  · intro k
    rw [hw'.queues _ (by simp), hw₁.queues _ (by simp)]

/-- PCB `i` was killed under the pid it had; the mutexes of that pid were handed
over with the new pid of the victim in place. -/
structure Killed (i : Nat) (old : Int) (s : State) (q : Node → List Nat) (s' : State)
    (q' : Node → List Nat) : Prop extends Ends i s q s' q' where
  pid_self : (s'.pcb i).pid = 0
  owned : ∀ k, k < lockNum → (s.mlocks k).owner = old →
    s'.mlocks k = handed (fun j => (s'.pcb j).pid) (s.mlocks k) (q (.lock k)) ∧
    q' (.lock k) = (q (.lock k)).tail.erase i
  other : ∀ k, k < lockNum → (s.mlocks k).owner ≠ old →
    s'.mlocks k = s.mlocks k ∧ q' (.lock k) = (q (.lock k)).erase i

theorem lock_not_mem_queues {b : Node} (hb : ∀ k, b ≠ .lock k) (hr : b ≠ .ready) :
    b ∉ Node.ready :: lockQueues := by
  rw [List.mem_cons, not_or]
  refine ⟨hr, fun hmem => ?_⟩
  obtain ⟨k, _, hk⟩ := List.mem_map.mp hmem
  exact hb k hk.symm

/-- How `do_kill` ends the victim, by its status. -/
def endVictim (cpu i now : Nat) (s : State) : Except Stop (Int × State) :=
  match (s.pcb i).status with
  | .blocked | .ready => .ok (1, setStatus i .exited (delQueue i s))
  | .running => do
    let s ← doScheduler cpu now (setStatus i .exited s)
    .ok (1, s)
  | .exited | .available => .ok (0, s)

/-- **Killing.**  The victim must not run on another core. -/
theorem doKill_spec {pid : Int} (hs : Settled n s q) (hcpu : cpu < n)
    (hfind : findPid pid s = some i) (hi : i < numMaxTask) (hav : (s.pcb i).status ≠ .available)
    (hown : ∀ c, c < n → s.coreRunning c = .task i → c = cpu) (now : Nat) :
    ∃ r s' q', doKill cpu pid now s = .ok (r, s') ∧ Settled n s' q' ∧ Killed i pid s q s' q' := by
  obtain ⟨s₁, q₁, hdrain, ht₁, hw₁, hnil⟩ := drainLoop_next hs.toTidy hi hav
  -- the pid is overwritten
  have hpcb₂ : ∀ j, ((setPcb i { s₁.pcb i with pid := 0 } s₁).pcb j).status =
      (s₁.pcb j).status := by
    intro j
    change (Function.update s₁.pcb i _ j).status = _
    by_cases hj : j = i
    · rw [hj, Function.update_self]
    · rw [Function.update_of_ne hj]
  have hpid₂ : ∀ j, ((setPcb i { s₁.pcb i with pid := 0 } s₁).pcb j).pid =
      if j = i then 0 else (s₁.pcb j).pid := by
    intro j
    change (Function.update s₁.pcb i _ j).pid = _
    by_cases hj : j = i
    · rw [hj, Function.update_self, if_pos rfl]
    · rw [Function.update_of_ne hj, if_neg hj]
  have ht₂ : Tidy n (setPcb i { s₁.pcb i with pid := 0 } s₁) q₁ := ht₁.congr rfl hpcb₂ rfl
  obtain ⟨s₃, q₃, hrel, ht₃, hw₃, hlocks⟩ := releasePcbLock_spec pid lockNum 0 _ q₁ ht₂ (by simp)
  have hrun₃ : ∀ j, (s₃.pcb j).status = .running ↔ (s.pcb j).status = .running := by
    intro j
    rw [← hw₁.running j, ← hpcb₂ j]
    exact hw₃.running j
  have hlive₃ : ∀ j, Live s₃ j ↔ Live s j := by
    intro j
    have h₃ := hw₃.live j
    have h₂ : Live (setPcb i { s₁.pcb i with pid := 0 } s₁) j ↔ Live s₁ j := by
      unfold Live
      rw [hpcb₂ j]
    exact h₃.trans (h₂.trans (hw₁.live j))
  have hav₃ : ∀ j, (s₃.pcb j).status = .available ↔ (s.pcb j).status = .available := by
    intro j
    have h₃ := hw₃.available j
    rw [hpcb₂ j] at h₃
    exact h₃.trans (hw₁.available j)
  have hpid₃ : ∀ j, (s₃.pcb j).pid = if j = i then 0 else (s.pcb j).pid := by
    intro j
    have h₃ := hw₃.pid j
    rw [hpid₂ j, hw₁.pid j] at h₃
    exact h₃
  have hcore₃ : s₃.coreRunning = s.coreRunning := hw₃.core.trans hw₁.core
  have hb₃ : Busy (· < n) s₃ := hs.busy.congr (fun j hj => (hrun₃ j).mpr hj) hcore₃
  have hwait₃ : q₃ (.wait i) = [] := by
    rw [hw₃.queues _ (lock_not_mem_queues (by simp) (by simp))]
    exact hnil
  -- what holds however the victim is taken out of its queue
  have hkilled : ∀ s' q', (s'.pcb i).status = .exited →
      (∀ j, (s'.pcb j).pid = (s₃.pcb j).pid) → (∀ j, j ≠ i → (Live s' j ↔ Live s₃ j)) →
      (∀ j, (s'.pcb j).status = .available → (s₃.pcb j).status = .available) →
      s'.processId = s₃.processId → s'.barriers = s₃.barriers → s'.mlocks = s₃.mlocks →
      (∀ b, b ≠ .ready → b ≠ .sleep → q' b = (q₃ b).erase i) → Killed i pid s q s' q' := by
    intro s' q' hst hpid hlive hav' hproc hbar hm hq
    have hlock : ∀ k, (s.mlocks k) = ((setPcb i { s₁.pcb i with pid := 0 } s₁).mlocks k) := by
      intro k
      change _ = s₁.mlocks k
      rw [hw₁.mlocks]
    have hq₁ : ∀ k, q₁ (.lock k) = q (.lock k) := fun k => hw₁.queues _ (by simp)
    refine ⟨⟨hst, ?_, ?_, ?_, ?_, ?_, ?_⟩, ?_, ?_, ?_⟩
    · intro j hj
      rw [hpid j, hpid₃ j, if_neg hj]
    · intro j hj
      rw [hlive j hj, hlive₃ j]
    · intro j hj
      exact (hav₃ j).mp (hav' j hj)
    · exact hproc.trans (hw₃.processId.trans hw₁.processId)
    · exact hbar.trans (hw₃.barriers.trans hw₁.barriers)
    · intro k
      rw [hq _ (by simp) (by simp), hw₃.queues _ (lock_not_mem_queues (by simp) (by simp)),
        hw₁.queues _ (by simp)]
    · rw [hpid i, hpid₃ i, if_pos rfl]
    · intro k hk hown'
      rw [hlock k] at hown'
      obtain ⟨hmk, hqk⟩ := (hlocks k).1 (Nat.zero_le k) (by omega) hown'
      have hpids : (fun j => ((setPcb i { s₁.pcb i with pid := 0 } s₁).pcb j).pid) =
          fun j => (s'.pcb j).pid := by
        funext j
        rw [hpid j, hpid₃ j, hpid₂ j, hw₁.pid j]
      rw [hm, hmk, hpids, hq _ (by simp) (by simp), hqk, hq₁ k, hlock k]
      exact ⟨rfl, rfl⟩
    · intro k hk hown'
      rw [hlock k] at hown'
      obtain ⟨hmk, hqk⟩ := (hlocks k).2 (Or.inr (Or.inr hown'))
      rw [hm, hmk, hq _ (by simp) (by simp), hqk, hq₁ k, hlock k]
      exact ⟨rfl, rfl⟩
  have hunfold : doKill cpu pid now s = endVictim cpu i now s₃ := by
    unfold doKill
    rw [hfind]
    change drainLoop Links.next i rounds s >>= _ = _
    rw [hdrain]
    change releasePcbLock pid lockNum 0 (setPcb i { s₁.pcb i with pid := 0 } s₁) >>= _ = _
    rw [hrel]
    rfl
  rw [hunfold]
  unfold endVictim
  have hdropped : (s₃.pcb i).status ≠ .running → (s₃.pcb i).status ≠ .available →
      Settled n (setStatus i .exited (delQueue i s₃)) (fun b => (q₃ b).erase i) ∧
      Killed i pid s q (setStatus i .exited (delQueue i s₃)) (fun b => (q₃ b).erase i) := by
    intro hnr hna
    refine ⟨⟨ht₃.drop hi hna hwait₃, ?_⟩, ?_⟩
    · intro c j hc hcj
      have hrunj := hb₃ c j hc hcj
      have hji : j ≠ i := fun heq => hnr (heq ▸ hrunj)
      rw [setStatus_pcb_of_ne hji]
      exact hrunj
    · refine hkilled _ _ (setStatus_pcb_self i _) (fun j => setStatus_pid i j _) ?_ ?_ rfl rfl
        rfl (fun _ _ _ => rfl)
      · intro j hj
        exact live_setStatus_of_ne hj
      · intro j hj
        exact (setStatus_available (by simp) hna j).mp hj
  cases hst : (s₃.pcb i).status with
  | blocked =>
      obtain ⟨hset, hkl⟩ := hdropped (by rw [hst]; simp) (by rw [hst]; simp)
      exact ⟨_, _, _, rfl, hset, hkl⟩
  | ready =>
      obtain ⟨hset, hkl⟩ := hdropped (by rw [hst]; simp) (by rw [hst]; simp)
      exact ⟨_, _, _, rfl, hset, hkl⟩
  | running =>
      obtain ⟨⟨c, hc, hci⟩, hfree⟩ := ht₃.running hi hst
      have hcc : c = cpu := hown c hc (by rw [← hcore₃]; exact hci)
      rw [hcc] at hci
      obtain ⟨s', q', hsched, hs', hw'⟩ := leave_spec ht₃ hcpu hci hb₃ hwait₃ now
      refine ⟨1, s', q', ?_, hs', hkilled s' q' ?_ ?_ ?_ ?_ ?_ ?_ ?_ ?_⟩
      · change doScheduler cpu now (setStatus i .exited s₃) >>= _ = _
        rw [hsched]
        rfl
      · have hex := setStatus_pcb_self (s := s₃) i .exited
        exact (hw'.status i (Or.inl hex)).trans hex
      · intro j
        rw [hw'.pid j, setStatus_pid]
      · intro j hj
        rw [hw'.live j, live_setStatus_of_ne hj]
      · intro j hj
        have hj' := (hw'.available j).mp hj
        exact (setStatus_available (by simp) (live_of_running hst).2 j).mp hj'
      · exact hw'.processId
      · exact hw'.barriers
      · exact hw'.mlocks
      · intro b hbr hbs
        rw [hw'.queues b (by simp [hbr, hbs]), List.erase_of_not_mem (hfree b)]
  | exited =>
      have hl : ¬ Live s₃ i := fun hl => hl.1 hst
      refine ⟨0, s₃, q₃, rfl, ⟨ht₃, hb₃⟩, hkilled s₃ q₃ hst (fun _ => rfl) (fun _ _ => Iff.rfl)
        (fun _ hj => hj) rfl rfl rfl ?_⟩
      intro b _ _
      rw [List.erase_of_not_mem ((ht₃.ended hi hl).2 b)]
  | available => exact absurd ((hav₃ i).mp hst) hav

end Sched
