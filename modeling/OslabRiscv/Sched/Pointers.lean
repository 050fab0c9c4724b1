import OslabRiscv.Sched.Runs

/-!
# Which PCBs the kernel can reach

Whatever the calls do to the queues, also where they tear them, the kernel only gets
at PCBs that some link or some core pointed to before, or that it has just set up.
So a PCB that is run has been given a pid.
-/

namespace Sched

open IntrusiveList Outcome

/-- A link leads to the PCB. -/
def PointsTo (l : Links Node) (i : Nat) : Prop :=
  ∃ n, l.next n = some (.task i) ∨ l.prev n = some (.task i)

/-- A link or a core leads to the PCB. -/
def Reached (s : State) (i : Nat) : Prop := PointsTo s.links i ∨ ∃ c, s.coreRunning c = .task i

/-- The node is the head of a queue. -/
def Queue (h : Node) : Prop := ∀ i, h ≠ .task i

section Links

variable {l : Links Node} {i j : Nat} {n h : Node} {v : Option Node}

/-- A link that is set leads where it is set to, the others where they led. -/
theorem pointsTo_setNext (hp : PointsTo (l.setNext n v) i) : PointsTo l i ∨ v = some (.task i) := by
  obtain ⟨m, hnext | hprev⟩ := hp
  · change Function.update l.next n v m = _ at hnext
    by_cases hm : m = n
    · rw [hm, Function.update_self] at hnext
      exact Or.inr hnext
    · rw [Function.update_of_ne hm] at hnext
      exact Or.inl ⟨m, Or.inl hnext⟩
  · exact Or.inl ⟨m, Or.inr hprev⟩

/-- The same for a link backwards. -/
theorem pointsTo_setPrev (hp : PointsTo (l.setPrev n v) i) : PointsTo l i ∨ v = some (.task i) := by
  obtain ⟨m, hnext | hprev⟩ := hp
  · exact Or.inl ⟨m, Or.inl hnext⟩
  · change Function.update l.prev n v m = _ at hprev
    by_cases hm : m = n
    · rw [hm, Function.update_self] at hprev
      exact Or.inr hprev
    · rw [Function.update_of_ne hm] at hprev
      exact Or.inl ⟨m, Or.inr hprev⟩

/-- Appending a PCB to a queue makes links to it only. -/
theorem pointsTo_listAddTail {l' : Links Node} (hh : Queue h)
    (hadd : listAddTail (.task j) h l = .ok l') (hp : PointsTo l' i) : PointsTo l i ∨ i = j := by
  unfold listAddTail at hadd
  cases hprev : l.prev h with
  | none =>
      rw [hprev] at hadd
      cases hadd
  | some p =>
      rw [hprev] at hadd
      cases hadd
      unfold listAdd at hp
      have hnode : some (Node.task j) = some (.task i) → i = j := fun heq =>
        (Node.task.inj (Option.some.inj heq)).symm
      rcases pointsTo_setPrev hp with hp | hv
      · rcases pointsTo_setNext hp with hp | hv
        · rcases pointsTo_setPrev hp with hp | hv
          · rcases pointsTo_setNext hp with hp | hv
            · exact Or.inl hp
            · exact absurd (Option.some.inj hv) (hh i)
          · exact Or.inl ⟨h, Or.inr (hprev.trans hv)⟩
        · exact Or.inr (hnode hv)
      · exact Or.inr (hnode hv)

/-- Taking a node out of a list makes no link to a new PCB. -/
theorem pointsTo_listDel (hp : PointsTo (listDel n l) i) : PointsTo l i := by
  unfold listDel at hp
  cases hprev : l.prev n with
  | none =>
      rw [hprev] at hp
      exact hp
  | some a =>
      cases hnext : l.next n with
      | none =>
          rw [hprev, hnext] at hp
          exact hp
      | some b =>
          rw [hprev, hnext] at hp
          rcases pointsTo_setNext hp with hp | hv
          · rcases pointsTo_setPrev hp with hp | hv
            · rcases pointsTo_setPrev hp with hp | hv
              · rcases pointsTo_setNext hp with hp | hv
                · exact hp
                · exact ⟨n, Or.inl (hnext.trans hv)⟩
              · exact ⟨n, Or.inr (hprev.trans hv)⟩
            · cases hv
          · cases hv

/-- An empty head leads to no PCB. -/
theorem pointsTo_initListHead (hh : Queue h) (hp : PointsTo (initListHead h l) i) :
    PointsTo l i := by
  rcases pointsTo_setPrev hp with hp | hv
  · rcases pointsTo_setNext hp with hp | hv
    · exact hp
    · exact absurd (Option.some.inj hv) (hh i)
  · exact absurd (Option.some.inj hv) (hh i)

end Links

/-- Since `s₀` no PCB has come within reach, none has got a pid but 0, and none has
become available again. -/
structure Moves (s₀ s : State) : Prop where
  held : ∀ i, Reached s i → Reached s₀ i
  pid : ∀ i, (s.pcb i).pid = (s₀.pcb i).pid ∨ (s.pcb i).pid = 0
  used : ∀ i, (s₀.pcb i).status ≠ .available → (s.pcb i).status ≠ .available
  processId : s.processId = s₀.processId

theorem Moves.refl (s : State) : Moves s s :=
  ⟨fun _ hi => hi, fun _ => Or.inl rfl, fun _ hi => hi, rfl⟩

section Ops

variable {s₀ s : State} {i j cpu : Nat} {h : Node}

/-- Every error is admitted. -/
def AnyStop (_ : Stop) : Prop := True

/-- The links may lead to fewer PCBs, and the tables besides may change. -/
theorem Moves.links (hm : Moves s₀ s) {s' : State} (hp : ∀ i, PointsTo s'.links i → Reached s₀ i)
    (hcore : s'.coreRunning = s.coreRunning) (hpcb : s'.pcb = s.pcb)
    (hid : s'.processId = s.processId) : Moves s₀ s' := by
  refine ⟨fun i hi => ?_, fun i => ?_, fun i hi => ?_, hid.trans hm.processId⟩
  · rcases hi with hi | ⟨c, hc⟩
    · exact hp i hi
    · rw [hcore] at hc
      exact hm.held i (Or.inr ⟨c, hc⟩)
  · rw [hpcb]
    exact hm.pid i
  · rw [hpcb]
    exact hm.used i hi

/-- Links, cores and PCBs are as they were. -/
theorem Moves.same (hm : Moves s₀ s) {s' : State} (hlinks : s'.links = s.links)
    (hcore : s'.coreRunning = s.coreRunning) (hpcb : s'.pcb = s.pcb)
    (hid : s'.processId = s.processId) : Moves s₀ s' :=
  hm.links (fun i hi => hm.held i (Or.inl (hlinks ▸ hi))) hcore hpcb hid

/-- A PCB changes, but for its pid. -/
theorem Moves.setPcb (hm : Moves s₀ s) {p : Pcb} (hpid : p.pid = (s.pcb i).pid ∨ p.pid = 0)
    (hst : (s₀.pcb i).status ≠ .available → p.status ≠ .available) :
    Moves s₀ (setPcb i p s) := by
  refine ⟨hm.held, fun k => ?_, fun k hk => ?_, hm.processId⟩
  · by_cases hki : k = i
    · subst hki
      rw [show (Sched.setPcb k p s).pcb k = p from Function.update_self _ _ _]
      rcases hpid with hpid | hpid
      · rw [hpid]
        exact hm.pid k
      · exact Or.inr hpid
    · rw [show (Sched.setPcb i p s).pcb k = s.pcb k from Function.update_of_ne hki _ _]
      exact hm.pid k
  · by_cases hki : k = i
    · subst hki
      rw [show (Sched.setPcb k p s).pcb k = p from Function.update_self _ _ _]
      exact hst hk
    · rw [show (Sched.setPcb i p s).pcb k = s.pcb k from Function.update_of_ne hki _ _]
      exact hm.used k hk

/-- A status is set that is not the free one. -/
theorem Moves.setStatus (hm : Moves s₀ s) {st : Status} (hst : st ≠ .available) :
    Moves s₀ (setStatus i st s) := hm.setPcb (Or.inl rfl) fun _ => hst

/-- A PCB leaves its queue. -/
theorem Moves.delQueue (hm : Moves s₀ s) : Moves s₀ (delQueue i s) :=
  hm.links (fun _ hp => hm.held _ (Or.inl (pointsTo_listDel hp))) rfl rfl rfl

/-- A PCB that was reached joins a queue. -/
theorem Moves.addQueue (hm : Moves s₀ s) (hh : Queue h) (hj : Reached s₀ j) :
    Holds AnyStop (Moves s₀) (addQueue h j s) := by
  unfold Sched.addQueue
  cases hadd : listAddTail (.task j) h s.links with
  | error e => trivial
  | ok l =>
      refine hm.links (fun i hp => ?_) rfl rfl rfl
      rcases pointsTo_listAddTail hh hadd hp with hp | rfl
      · exact hm.held i (Or.inl hp)
      · exact hj

/-- The PCB behind a link was reached before. -/
theorem Moves.next (hm : Moves s₀ s) (hn : s.links.next h = some (.task i)) : Reached s₀ i :=
  hm.held i (Or.inl ⟨h, Or.inl hn⟩)

/-- The PCB that runs was reached before. -/
theorem Moves.current (hm : Moves s₀ s) (cpu : Nat) :
    Holds AnyStop (Reached s₀) (current cpu s) := by
  unfold Sched.current
  cases hc : s.coreRunning cpu with
  | idle => trivial
  | task i => exact hm.held i (Or.inr ⟨cpu, hc⟩)

/-- The ready queue is a queue. -/
theorem ready_queue : Queue .ready := fun _ => nofun
/-- The sleep queue is a queue. -/
theorem sleep_queue : Queue .sleep := fun _ => nofun

/-- The loop over the sleepers, by induction on its rounds. -/
theorem checkLoop_moves (now fuel : Nat) : ∀ {it : Option Node} {s : State}, Moves s₀ s →
    (∀ i, it = some (.task i) → Reached s₀ i) → Holds AnyStop (Moves s₀) (checkLoop now fuel it s) := by
  induction fuel with
  | zero =>
      intro it s _ _
      trivial
  | succ fuel ih =>
      intro it s hm hit
      unfold checkLoop
      split
      · exact hm
      · rename_i i
        have hnext : ∀ k, s.links.next (.task i) = some (.task k) → Reached s₀ k := fun k hk => hm.next hk
        simp only
        split_ifs
        · refine Holds.bind (Moves.addQueue ?_ ready_queue (hit i rfl)) fun s' hm' => ih hm' hnext
          exact (hm.setStatus (by decide)).delQueue
        · exact ih hm hnext
      · trivial

/-- `check_sleeping` wakes PCBs that were reached before. -/
theorem checkSleeping_moves (hm : Moves s₀ s) (now : Nat) :
    Holds AnyStop (Moves s₀) (checkSleeping now s) :=
  checkLoop_moves now rounds hm fun _ hi => hm.next hi

/-- The search for the next task, by induction on its rounds: what it finds was reached before. -/
theorem pickLoop_moves (cpu fuel : Nat) : ∀ {it : Option Node}, Moves s₀ s →
    (∀ i, it = some (.task i) → Reached s₀ i) → Holds AnyStop
      (fun r => Moves s₀ r.2 ∧ ∀ i, r.1 = some i → Reached s₀ i) (pickLoop cpu fuel it s) := by
  induction fuel with
  | zero =>
      intro it _ _
      trivial
  | succ fuel ih =>
      intro it hm hit
      unfold pickLoop
      split
      · exact ⟨hm, nofun⟩
      · rename_i i
        split_ifs
        · refine ⟨hm.delQueue, fun k hk => ?_⟩
          cases hk
          exact hit i rfl
        · exact ih hm fun k hk => hm.next hk
      · trivial

/-- The task that ran goes back to a queue. -/
theorem requeue_moves (hm : Moves s₀ s) {last : Who} (hlast : ∀ i, last = .task i → Reached s₀ i) :
    Holds AnyStop (Moves s₀) (requeue last s) := by
  unfold requeue
  cases last with
  | idle => exact hm
  | task i =>
      simp only
      split_ifs
      · exact Moves.addQueue (hm.setStatus (by decide)) ready_queue (hlast i rfl)
      · exact hm

/-- The task that was found is given the core. -/
theorem dispatch_moves (hm : Moves s₀ s) {next : Option Nat}
    (hnext : ∀ i, next = some i → Reached s₀ i) : Moves s₀ (dispatch cpu next s) := by
  have hcore : ∀ (w : Who) (t : State), Moves s₀ t → (∀ i, w = .task i → Reached s₀ i) →
      Moves s₀ { t with coreRunning := Function.update t.coreRunning cpu w } := by
    intro w t ht hw
    refine ⟨fun i hi => ?_, ht.pid, ht.used, ht.processId⟩
    rcases hi with hi | ⟨c, hc⟩
    · exact ht.held i (Or.inl hi)
    · change Function.update t.coreRunning cpu w c = _ at hc
      by_cases hcc : c = cpu
      · rw [hcc, Function.update_self] at hc
        exact hw i hc
      · rw [Function.update_of_ne hcc] at hc
        exact ht.held i (Or.inr ⟨c, hc⟩)
  unfold dispatch
  cases next with
  | some i =>
      refine hcore _ _ (hm.setStatus (by decide)) fun k hk => ?_
      cases hk
      exact hnext i rfl
  | none => exact hcore _ _ hm nofun

/-- `do_scheduler` switches among PCBs that were reached before. -/
theorem doScheduler_moves (hm : Moves s₀ s) (cpu now : Nat) :
    Holds AnyStop (Moves s₀) (doScheduler cpu now s) := by
  unfold doScheduler
  refine Holds.bind (checkSleeping_moves hm now) fun s₁ h₁ => ?_
  refine Holds.bind (requeue_moves h₁ fun i hi => hm.held i (Or.inr ⟨cpu, hi⟩)) fun s₂ h₂ => ?_
  split_ifs
  · exact dispatch_moves h₂ nofun
  · exact Holds.bind (pickLoop_moves cpu rounds h₂ fun i hi => h₂.next hi)
      fun r hr => dispatch_moves hr.1 hr.2

/-- The running task joins a queue that it waits in. -/
theorem blockOn_moves (hm : Moves s₀ s) (hh : Queue h) (hi : Reached s₀ i) :
    Holds AnyStop (Moves s₀) (blockOn h i s) :=
  Moves.addQueue (hm.setStatus (by decide)) hh hi

/-- `do_block` with the switch that follows it. -/
theorem doBlock_moves (hm : Moves s₀ s) (hh : Queue h) (hi : Reached s₀ i) (cpu now : Nat) :
    Holds AnyStop (Moves s₀) (doBlock cpu i h now s) :=
  Holds.bind (blockOn_moves hm hh hi) fun _ h₁ => doScheduler_moves h₁ cpu now

/-- `do_sleep` with the switch that follows it. -/
theorem doSleep_moves (hm : Moves s₀ s) (cpu sleepTime now now' : Nat) :
    Holds AnyStop (Moves s₀) (doSleep cpu sleepTime now now' s) := by
  unfold doSleep
  refine Holds.bind (hm.current cpu) fun i hi => ?_
  have hset : Moves s₀ (setStatus i .blocked s) := hm.setStatus (by decide)
  refine Holds.bind (Moves.addQueue (hset.setPcb (Or.inl rfl) fun _ => ?_) sleep_queue hi)
    fun s₁ h₁ => doScheduler_moves h₁ cpu now'
  rw [show (setStatus i .blocked s).pcb i = _ from Function.update_self _ _ _]
  exact nofun

/-- `do_unblock` moves the head of a queue to the ready queue. -/
theorem doUnblock_moves (hm : Moves s₀ s) (h : Node) : Holds AnyStop (Moves s₀) (doUnblock h s) := by
  unfold doUnblock
  refine Holds.bind (P := fun r => Moves s₀ r.2 ∧ Reached s₀ r.1) ?_ fun r hr =>
    Moves.addQueue (hr.1.setStatus (by decide)) ready_queue hr.2
  unfold getHead
  split
  · rename_i i hn
    exact ⟨hm.delQueue, hm.next hn⟩
  · trivial

/-- The waiters of a task that ends, by induction on their number. -/
theorem drainLoop_moves (side : Links Node → Node → Option Node) (i fuel : Nat) :
    ∀ {s : State}, Moves s₀ s → Holds AnyStop (Moves s₀) (drainLoop side i fuel s) := by
  induction fuel with
  | zero =>
      intro s _
      trivial
  | succ fuel ih =>
      intro s hm
      unfold drainLoop
      split_ifs
      · exact hm
      · split
        · split_ifs
          · exact Holds.bind (doUnblock_moves hm _) fun s₁ h₁ => ih h₁
          · exact ih hm
        · trivial

/-- `do_exit` frees its PCB, and switches. -/
theorem doExit_moves (hm : Moves s₀ s) (cpu now : Nat) :
    Holds AnyStop (Moves s₀) (doExit cpu now s) := by
  unfold doExit
  refine Holds.bind (hm.current cpu) fun i _ => ?_
  refine Holds.bind (drainLoop_moves _ i rounds hm) fun s₁ h₁ => doScheduler_moves ?_ cpu now
  exact h₁.delQueue.setStatus (by decide)

/-- A lock is released or handed on. -/
theorem doMutexLockRelease_moves (hm : Moves s₀ s) (k : Nat) :
    Holds AnyStop (Moves s₀) (doMutexLockRelease k s) := by
  unfold doMutexLockRelease
  split_ifs
  · trivial
  · exact hm.same rfl rfl rfl rfl
  · split
    · refine doUnblock_moves ?_ _
      exact hm.same rfl rfl rfl rfl
    · trivial

/-- The locks of a task that ends, by induction on the rest of the table. -/
theorem releasePcbLock_moves (pid : Int) (left : Nat) : ∀ {k : Nat} {s : State}, Moves s₀ s →
    Holds AnyStop (Moves s₀) (releasePcbLock pid left k s) := by
  induction left with
  | zero => exact fun hm => hm
  | succ left ih =>
      intro k s hm
      unfold releasePcbLock
      split_ifs
      · exact Holds.bind (doMutexLockRelease_moves hm k) fun s₁ h₁ => ih h₁
      · exact ih hm

/-- `do_kill` frees the PCB of the victim. -/
theorem doKill_moves (hm : Moves s₀ s) (cpu : Nat) (pid : Int) (now : Nat) :
    Holds AnyStop (fun r => Moves s₀ r.2) (doKill cpu pid now s) := by
  unfold doKill
  split
  · exact hm
  · rename_i i _
    refine Holds.bind (drainLoop_moves _ i rounds hm) fun s₁ h₁ => ?_
    have hzero : Moves s₀ (setPcb i { s₁.pcb i with pid := 0 } s₁) := h₁.setPcb (Or.inr rfl) (h₁.used i)
    refine Holds.bind (releasePcbLock_moves pid lockNum hzero) fun s₂ h₂ => ?_
    split
    · exact h₂.delQueue.setStatus (by decide)
    · exact h₂.delQueue.setStatus (by decide)
    · exact Holds.bind (doScheduler_moves (h₂.setStatus (by decide)) cpu now) fun s₃ h₃ => h₃
    · exact h₂
    · exact h₂

/-- `do_waitpid` waits in the queue of its child. -/
theorem doWaitpid_moves (hm : Moves s₀ s) (cpu : Nat) (pid : Int) (now : Nat) :
    Holds AnyStop (fun r => Moves s₀ r.2) (doWaitpid cpu pid now s) := by
  unfold doWaitpid
  split
  · exact hm
  · split_ifs
    · refine Holds.bind (hm.current cpu) fun c hc => ?_
      refine Holds.bind (blockOn_moves hm (fun _ => nofun) hc) fun s₁ h₁ => ?_
      exact Holds.bind (doScheduler_moves h₁ cpu now) fun s₂ h₂ => h₂
    · exact Holds.bind (doScheduler_moves hm cpu now) fun s₂ h₂ => h₂

/-- The tasks at a barrier, by induction on their number. -/
theorem barrierLoop_moves (k fuel : Nat) : ∀ {s : State}, Moves s₀ s →
    Holds AnyStop (Moves s₀) (barrierLoop k fuel s) := by
  induction fuel with
  | zero =>
      intro s _
      trivial
  | succ fuel ih =>
      intro s hm
      unfold barrierLoop
      split_ifs
      · exact hm
      · refine Holds.bind (doUnblock_moves hm _) fun s₁ h₁ => ih ?_
        exact h₁.same rfl rfl rfl rfl

/-- `do_barrier_wait` waits, or lets all of them go. -/
theorem doBarrierWait_moves (hm : Moves s₀ s) (cpu k now : Nat) :
    Holds AnyStop (Moves s₀) (doBarrierWait cpu k now s) := by
  unfold doBarrierWait
  refine Holds.bind (hm.current cpu) fun i hi => ?_
  split_ifs
  · trivial
  · exact Holds.bind (barrierLoop_moves k rounds hm) fun s₁ h₁ => doScheduler_moves h₁ cpu now
  · trivial
  · refine Holds.bind (blockOn_moves hm (fun _ => nofun) hi) fun s₁ h₁ => ?_
    refine doScheduler_moves ?_ cpu now
    exact h₁.same rfl rfl rfl rfl

/-- The call sets up a PCB. -/
def Call.creates : Call → Bool
  | .exec | .threadCreate => true
  | _ => false

/-- A call that sets up no PCB. -/
theorem handle_moves (hm : Moves s₀ s) (cpu : Nat) {c : Call} (hc : c.creates = false) :
    Holds AnyStop (Moves s₀) (handle cpu c s) := by
  cases c with
  | exec => cases hc
  | threadCreate => cases hc
  | exit now => exact doExit_moves hm cpu now
  | kill pid now => exact Holds.bind (doKill_moves hm cpu pid now) fun r hr => hr
  | waitpid pid now => exact Holds.bind (doWaitpid_moves hm cpu pid now) fun r hr => hr
  | sleep sleepTime now now' => exact doSleep_moves hm cpu sleepTime now now'
  | schedule now => exact doScheduler_moves hm cpu now
  | tick now now' =>
      exact Holds.bind (checkSleeping_moves hm now) fun s₁ h₁ => doScheduler_moves h₁ cpu now'
  | lockInit key =>
      refine Holds.bind (P := fun r : Nat × State => Moves s₀ r.2) ?_ fun r hr => hr
      unfold doMutexLockInit
      split
      · trivial
      · exact hm
      · exact hm.same rfl rfl rfl rfl
  | acquire k now =>
      change Holds AnyStop (Moves s₀) (doMutexLockAcquire cpu k now s)
      unfold doMutexLockAcquire
      refine Holds.bind (hm.current cpu) fun i hi => ?_
      split_ifs
      · trivial
      · exact hm.same rfl rfl rfl rfl
      · exact doBlock_moves hm (h := .lock k) (fun _ => nofun) hi cpu now
  | release k => exact doMutexLockRelease_moves hm k
  | barrierInit key goal =>
      change Moves s₀ (doBarrierInit key goal s).2
      unfold doBarrierInit
      split
      · exact hm
      · exact hm.same rfl rfl rfl rfl
  | barrierWait k now => exact doBarrierWait_moves hm cpu k now
  | barrierDestroy k =>
      change Holds AnyStop (Moves s₀) (doBarrierDestroy k s)
      unfold doBarrierDestroy
      split_ifs
      · trivial
      · exact hm
      · exact hm.same rfl rfl rfl rfl

/-- A new PCB has come within reach, and nothing else. -/
structure Sets (i : Nat) (pid : Int) (s s' : State) : Prop where
  held : ∀ j, Reached s' j → Reached s j ∨ j = i
  pid : (s'.pcb i).pid = pid
  used : (s'.pcb i).status ≠ .available
  other : ∀ j ≠ i, s'.pcb j = s.pcb j
  processId : s'.processId = s.processId

/-- A new task is the only PCB that is set up. -/
theorem newTask_sets (i : Nat) (pid : Int) (mask : Nat) (s : State) :
    Holds AnyStop (Sets i pid s) (newTask i pid mask s) := by
  have hwait : Queue (.wait i) := fun _ => nofun
  obtain ⟨l₀, hl₀⟩ : ∃ l₀, l₀ = initListHead (.wait i)
      (((setStatus i .ready s).links.setNext (.task i) none).setPrev (.task i) none) := ⟨_, rfl⟩
  unfold newTask
  simp only
  rw [← hl₀]
  unfold Sched.addQueue
  cases hadd : listAddTail (.task i) .ready (setPcb i ⟨pid, .ready, 0, mask⟩
      { setStatus i .ready s with links := l₀ }).links with
  | error e => trivial
  | ok l =>
      subst hl₀
      have hset := Function.update_self i (⟨pid, .ready, 0, mask⟩ : Pcb) (setStatus i .ready s).pcb
      refine ⟨fun j hj => ?_, ?_, ?_, fun j hj => ?_, rfl⟩
      · rcases hj with hj | hj
        · rcases pointsTo_listAddTail ready_queue hadd hj with hj | rfl
          · rcases pointsTo_setPrev (pointsTo_initListHead hwait hj) with hj | hv
            · rcases pointsTo_setNext hj with hj | hv
              · exact Or.inl (Or.inl hj)
              · cases hv
            · cases hv
          · exact Or.inr rfl
        · exact Or.inl (Or.inr hj)
      · exact congrArg Pcb.pid hset
      · change (Function.update (setStatus i .ready s).pcb i ⟨pid, .ready, 0, mask⟩ i).status ≠ _
        rw [hset]
        exact nofun
      · exact (Function.update_of_ne hj _ _).trans (Function.update_of_ne hj _ _)

end Ops

end Sched
