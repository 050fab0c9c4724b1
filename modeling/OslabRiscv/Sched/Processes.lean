import OslabRiscv.Sched.Scheduler

/-!
# What the calls do

One lemma for each kind of call, from a settled state of a machine with `n`
cores: the call returns, the state is settled again, and what became of the
queues, the pids and the tables of mutexes and barriers.
-/

namespace Sched

open IntrusiveList

variable {n cpu : Nat} {s : State} {q : Node → List Nat} {h : Node} {i : Nat}

/-- Live PCBs have positive pids, and slots never used have negative ones. -/
structure Pids (s : State) : Prop where
  fresh : 0 < s.processId
  live : ∀ i, i < numMaxTask → Live s i → 0 < (s.pcb i).pid
  available : ∀ i, i < numMaxTask → (s.pcb i).status = .available → (s.pcb i).pid < 0

theorem live_of_running (hst : (s.pcb i).status = .running) : Live s i :=
  ⟨by rw [hst]; simp, by rw [hst]; simp⟩

theorem Quiet.pids {E : List Node} {s' : State} {q' : Node → List Nat} (hw : Quiet E s q s' q')
    (hp : Pids s) : Pids s' := by
  refine ⟨?_, ?_, ?_⟩
  · rw [hw.processId]
    exact hp.fresh
  · intro j hj hl
    rw [hw.pid j]
    exact hp.live j hj ((hw.live j).mp hl)
  · intro j hj hav
    rw [hw.pid j]
    exact hp.available j hj ((hw.status j (Or.inr (Or.inr (Or.inr hav)))).symm.trans hav)

/-- What the other cores run is marked running. -/
theorem Settled.but (hs : Settled n s q) : Busy (fun c => c < n ∧ c ≠ cpu) s :=
  fun c j hc hcj => hs.busy c j hc.1 hcj

/-- What the core runs is marked running and is in no queue. -/
theorem Settled.current (hs : Settled n s q) (hcpu : cpu < n)
    (hcur : s.coreRunning cpu = .task i) :
    i < numMaxTask ∧ (s.pcb i).status = .running ∧ ∀ b, i ∉ q b := by
  have hi := hs.core cpu i hcpu hcur
  have hst := hs.busy cpu i hcpu hcur
  exact ⟨hi, hst, (hs.toTidy.running hi hst).2⟩

/-- A core runs a PCB of the table or has none. -/
theorem current_cases (cpu : Nat) (s : State) :
    (∃ i, s.coreRunning cpu = .task i ∧ current cpu s = .ok i) ∨
      current cpu s = .error .undefined := by
  unfold current
  cases hcur : s.coreRunning cpu with
  | idle => exact Or.inr rfl
  | task i => exact Or.inl ⟨i, rfl, rfl⟩

/-- Rescheduling between two calls. -/
theorem Settled.schedule (hs : Settled n s q) (hp : Pids s) (hcpu : cpu < n) (now : Nat) :
    ∃ s' q', doScheduler cpu now s = .ok s' ∧ Settled n s' q' ∧
      Quiet [.ready, .sleep] s q s' q' := by
  refine doScheduler_spec hs.toTidy hcpu hs.but ?_ now
  intro j hj hst
  have hpos := hp.live j (hs.core cpu j hcpu hj) (live_of_running hst)
  omega

/-! ## Blocking -/

/-- The running task, marked blocked, enters a queue; then the core is
rescheduled. -/
theorem Settled.block {t : State} (hs : Settled n s q) (hcpu : cpu < n)
    (hcur : s.coreRunning cpu = .task i) (hlinks : t.links = s.links)
    (hpcb : ∀ j, j ≠ i → t.pcb j = s.pcb j) (hpid : (t.pcb i).pid = (s.pcb i).pid)
    (hst : (t.pcb i).status = .blocked) (hcore : t.coreRunning = s.coreRunning)
    (hproc : t.processId = s.processId) (hlocks : t.mlocks = s.mlocks) (hh : IsHead s h)
    (hne : h ≠ .ready) (hlive : ∀ j, h = .wait j → Live s j) :
    ∃ l, addQueue h i t = .ok { t with links := l } ∧
      Tidy n { t with links := l } (Function.update q h (q h ++ [i])) ∧
      Busy (fun c => c < n ∧ c ≠ cpu) { t with links := l } ∧
      Quiet [h] s q { t with links := l, barriers := s.barriers }
        (Function.update q h (q h ++ [i])) := by
  obtain ⟨hi, hrun, hfree⟩ := hs.current hcpu hcur
  have hav : ∀ j, j < numMaxTask →
      ((t.pcb j).status = .available ↔ (s.pcb j).status = .available) := by
    intro j _
    by_cases hj : j = i
    · rw [hj, hst, hrun]
      simp
    · rw [hpcb j hj]
  have hq : Queues t q := hs.queues.congr hlinks hav
  have hh₁ : IsHead t h := by
    cases h with
    | wait j => exact ⟨hh.1, fun heq => hh.2 ((hav j hh.1).mp heq)⟩
    | _ => exact hh
  obtain ⟨l, hadd, ht⟩ := hs.toTidy.enqueue hq hi hfree (fun j hj => by rw [hpcb j hj]) hcore
    hh₁ (by rw [hst, if_neg hne]) (fun j hj _ => hlive j hj)
  refine ⟨l, hadd, ht, ?_, ?_, ?_, ?_, hproc, hlocks, rfl⟩
  · intro c j hc hcj
    have hcj' : t.coreRunning c = .task j := hcj
    rw [hcore] at hcj'
    have hji : j ≠ i := by
      intro heq
      rw [heq] at hcj'
      exact hc.2 (hs.apart c cpu i hc.1 hcpu hcj' hcur)
    change (t.pcb j).status = _
    rw [hpcb j hji]
    exact hs.busy c j hc.1 hcj'
  · intro b hb
    rw [List.mem_singleton] at hb
    exact Function.update_of_ne hb _ _
  · intro j
    change (t.pcb j).pid = _
    by_cases hj : j = i
    · rw [hj, hpid]
    · rw [hpcb j hj]
  · intro j hj
    change (t.pcb j).status = _
    by_cases hji : j = i
    · rw [hji] at hj
      change _ ∨ _ ∨ (t.pcb i).status = _ ∨ (t.pcb i).status = _ at hj
      rw [hst, hrun] at hj
      simp at hj
    · rw [hpcb j hji]

/-- After blocking, what the core ran is not marked running. -/
theorem blocked_core {t : State} (hcur : s.coreRunning cpu = .task i)
    (hcore : t.coreRunning = s.coreRunning) (hst : (t.pcb i).status = .blocked) :
    ∀ j, t.coreRunning cpu = .task j → (t.pcb j).status = .running → (t.pcb j).pid ≠ 0 := by
  intro j hj hrun
  rw [hcore, hcur] at hj
  cases hj
  rw [hst] at hrun
  cases hrun

/-- `do_block` of the running task. -/
theorem Settled.doBlock (hs : Settled n s q) (hcpu : cpu < n)
    (hcur : s.coreRunning cpu = .task i) (hh : IsHead s h) (hne : h ≠ .ready)
    (hlive : ∀ j, h = .wait j → Live s j) (now : Nat) :
    ∃ s' q', doBlock cpu i h now s = .ok s' ∧ Settled n s' q' ∧
      Quiet [.ready, .sleep] s (Function.update q h (q h ++ [i])) s' q' := by
  obtain ⟨l, hadd, ht, hb, hw⟩ := hs.block (t := setStatus i .blocked s) hcpu hcur rfl
    (fun j hj => setStatus_pcb_of_ne hj _) (setStatus_pid i i _) (setStatus_pcb_self i _) rfl rfl
    rfl hh hne hlive
  have hpid := blocked_core (t := { setStatus i .blocked s with links := l }) hcur rfl
    (setStatus_pcb_self i .blocked)
  obtain ⟨s', q', hsched, hs', hw'⟩ := doScheduler_spec ht hcpu hb hpid now
  refine ⟨s', q', ?_, hs', ?_⟩
  · unfold Sched.doBlock blockOn
    rw [hadd]
    exact hsched
  · have hw₁ : Quiet [.ready, .sleep] s (Function.update q h (q h ++ [i]))
        { setStatus i .blocked s with links := l } (Function.update q h (q h ++ [i])) :=
      ⟨fun _ _ => rfl, hw.pid, hw.status, hw.processId, hw.mlocks, rfl⟩
    exact hw₁.trans hw'

/-- The task marked blocked, with the time to wake it. -/
def asleep (i wakeup : Nat) (s : State) : State :=
  setPcb i { (setStatus i .blocked s).pcb i with wakeupTime := wakeup } (setStatus i .blocked s)

theorem asleep_pcb_of_ne {wakeup j : Nat} (hj : j ≠ i) : (asleep i wakeup s).pcb j = s.pcb j := by
  change Function.update (setStatus i .blocked s).pcb i _ j = _
  rw [Function.update_of_ne hj, setStatus_pcb_of_ne hj]

theorem asleep_pcb_self (wakeup : Nat) : (asleep i wakeup s).pcb i =
    { (setStatus i .blocked s).pcb i with wakeupTime := wakeup } :=
  Function.update_self _ _ _

/-- `do_sleep` puts the task into the sleep queue with its time, and switches. -/
theorem doSleep_spec (hs : Settled n s q) (hcpu : cpu < n)
    (hcur : s.coreRunning cpu = .task i) (sleepTime now now' : Nat) :
    ∃ s' q', doSleep cpu sleepTime now now' s = .ok s' ∧ Settled n s' q' ∧
      Quiet [.ready, .sleep] s q s' q' := by
  have hst : ((asleep i ((sleepTime + now) % 2 ^ 64) s).pcb i).status = .blocked := by
    rw [asleep_pcb_self]
    exact setStatus_pcb_self i .blocked
  have hpid : ((asleep i ((sleepTime + now) % 2 ^ 64) s).pcb i).pid = (s.pcb i).pid := by
    rw [asleep_pcb_self]
    exact setStatus_pid i i .blocked
  obtain ⟨l, hadd, ht, hb, hw⟩ := hs.block (h := .sleep)
    (t := asleep i ((sleepTime + now) % 2 ^ 64) s) hcpu hcur rfl
    (fun j hj => asleep_pcb_of_ne hj) hpid hst rfl rfl rfl trivial (by simp)
    (fun j hj => by cases hj)
  obtain ⟨s', q', hsched, hs', hw'⟩ :=
    doScheduler_spec ht hcpu hb (blocked_core hcur rfl hst) now'
  refine ⟨s', q', ?_, hs', ?_⟩
  · unfold doSleep current
    rw [hcur]
    change addQueue .sleep i (asleep i ((sleepTime + now) % 2 ^ 64) s) >>= _ = _
    rw [hadd]
    exact hsched
  · have hw₁ := hw.mono (F := [.ready, .sleep]) (by simp)
    exact Quiet.trans ⟨hw₁.queues, hw₁.pid, hw₁.status, rfl, rfl, rfl⟩ hw'

/-! ## Starting a task -/

/-- A search that succeeds ends at a slot that fits. -/
theorem findFrom_some {P : Nat → Bool} {left k : Nat} (hf : findFrom P left k = some i) :
    k ≤ i ∧ i < k + left ∧ P i = true := by
  induction left generalizing k with
  | zero => cases hf
  | succ left ih =>
      unfold findFrom at hf
      by_cases hk : P k
      · rw [if_pos hk] at hf
        cases hf
        exact ⟨le_refl _, by omega, hk⟩
      · rw [if_neg hk] at hf
        obtain ⟨h₁, h₂, h₃⟩ := ih hf
        exact ⟨by omega, by omega, h₃⟩

/-- The slot for a new task is not in use. -/
theorem freeSlot_some (hf : freeSlot s = some i) : i < numMaxTask ∧ ¬ Live s i := by
  obtain ⟨h₁, h₂, h₃⟩ := findFrom_some hf
  refine ⟨by unfold numMaxTask at h₂ ⊢; omega, ?_⟩
  rw [Bool.or_eq_true, decide_eq_true_iff, decide_eq_true_iff] at h₃
  intro hl
  rcases h₃ with h₃ | h₃
  · exact hl.1 h₃
  · exact hl.2 h₃

/-- A slot not in use is taken for a task, which is made ready. -/
theorem newTask_spec (hs : Settled n s q) (hi : i < numMaxTask) (hl : ¬ Live s i) (pid : Int)
    (mask : Nat) :
    ∃ s', newTask i pid mask s = .ok s' ∧
      Settled n s' (Function.update q .ready (q .ready ++ [i])) ∧
      s'.pcb = Function.update s.pcb i ⟨pid, .ready, 0, mask⟩ ∧ s'.coreRunning = s.coreRunning ∧
      s'.processId = s.processId ∧ s'.mlocks = s.mlocks ∧ s'.barriers = s.barriers := by
  obtain ⟨hwait, hfree⟩ := hs.toTidy.ended hi hl
  have hfree' : ∀ b, IsHead s b → Node.task i ∉ (q b).map Node.task := by
    intro b _ hmem
    exact hfree b ((List.mem_map_of_injective task_injective).mp hmem)
  obtain ⟨hnext, hprev⟩ := hs.queues.rings.detached (.task i) not_isHead_task hfree'
  -- the node of the PCB is detached already, so clearing it changes nothing
  have hclear : (s.links.setNext (.task i) none).setPrev (.task i) none = s.links := by
    unfold Links.setNext Links.setPrev
    rw [← hnext, Function.update_eq_self, hnext, ← hprev, Function.update_eq_self]
  have hpcb : Function.update (setStatus i .ready s).pcb i ⟨pid, .ready, 0, mask⟩ =
      Function.update s.pcb i ⟨pid, .ready, 0, mask⟩ :=
    Function.update_idem _ _ _
  have hunfold : newTask i pid mask s = addQueue .ready i
      { s with
        pcb := Function.update s.pcb i ⟨pid, .ready, 0, mask⟩
        links := initListHead (.wait i) s.links } := by
    unfold newTask setPcb
    change addQueue .ready i { s with
      pcb := Function.update (setStatus i .ready s).pcb i ⟨pid, .ready, 0, mask⟩
      links := initListHead (.wait i)
        ((s.links.setNext (.task i) none).setPrev (.task i) none) } = _
    rw [hclear, hpcb]
  have hread : ∀ j, j ≠ i → Function.update s.pcb i ⟨pid, .ready, 0, mask⟩ j = s.pcb j :=
    fun j hj => Function.update_of_ne hj _ _
  have hself : (Function.update s.pcb i ⟨pid, .ready, 0, mask⟩ i).status = .ready := by
    rw [Function.update_self]
  have hq : Queues { s with
      pcb := Function.update s.pcb i ⟨pid, .ready, 0, mask⟩
      links := initListHead (.wait i) s.links } q := by
    refine hs.queues.initWait hi hwait rfl ?_ ?_
    · intro j hj
      change (Function.update s.pcb i _ j).status = _ ↔ _
      rw [hread j hj]
    · change (Function.update s.pcb i _ i).status ≠ _
      rw [hself]
      simp
  obtain ⟨l, hadd, ht⟩ := hs.toTidy.enqueue (h := .ready) hq hi hfree
    (fun j hj => by
      change (Function.update s.pcb i _ j).status = _
      rw [hread j hj]) rfl trivial
    (by
      change (Function.update s.pcb i _ i).status = _
      rw [hself, if_pos rfl]) (fun j hj => by cases hj)
  rw [hunfold]
  refine ⟨_, hadd, ⟨ht, ?_⟩, rfl, rfl, rfl, rfl, rfl⟩
  intro c j hc hcj
  have hrun := hs.busy c j hc hcj
  have hji : j ≠ i := by
    intro heq
    exact hl (heq ▸ live_of_running hrun)
  change (Function.update s.pcb i _ j).status = _
  rw [hread j hji]
  exact hrun

end Sched
