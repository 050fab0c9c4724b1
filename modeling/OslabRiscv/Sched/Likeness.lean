import OslabRiscv.Sched.Conditions
import OslabRiscv.Sched.Runs
import OslabRiscv.Lib.Simulation

/-!
# Blocked tasks in the ready queue

A broadcast puts the task that gets the mutex into the ready queue without marking it
ready.  No kernel entry tells the marks `READY` and `BLOCKED` apart, so such a state goes
like the one in which the task is marked ready.
-/

namespace Sched

open IntrusiveList Outcome

/-- Some tasks that are marked ready in `t` are marked blocked in `s`. -/
structure Alike (s t : State) : Prop where
  rest : t = { s with pcb := t.pcb }
  pcb : ∀ i, t.pcb i = s.pcb i ∨
    (s.pcb i).status = .blocked ∧ t.pcb i = { s.pcb i with status := .ready }

variable {s t : State} {h : Node} {i : Nat}

theorem Alike.refl (s : State) : Alike s s := ⟨rfl, fun _ => Or.inl rfl⟩

section Table

variable (ha : Alike s t)
include ha

/-- Both have the same queues. -/
theorem Alike.links : t.links = s.links := by
  rw [ha.rest]

/-- On every core the same task is running. -/
theorem Alike.core : t.coreRunning = s.coreRunning := by
  rw [ha.rest]

/-- The next pid is the same. -/
theorem Alike.processId : t.processId = s.processId := by
  rw [ha.rest]

/-- The locks are the same. -/
theorem Alike.mlocks : t.mlocks = s.mlocks := by
  rw [ha.rest]

/-- The barriers are the same. -/
theorem Alike.barriers : t.barriers = s.barriers := by
  rw [ha.rest]

/-- The condition variables are the same. -/
theorem Alike.conditions : t.conditions = s.conditions := by
  rw [ha.rest]

/-- Every task has the same pid. -/
theorem Alike.pid (i : Nat) : (t.pcb i).pid = (s.pcb i).pid := by
  rcases ha.pcb i with h | ⟨_, h⟩ <;> rw [h]

/-- Every task may run on the same cores. -/
theorem Alike.mask (i : Nat) : (t.pcb i).mask = (s.pcb i).mask := by
  rcases ha.pcb i with h | ⟨_, h⟩ <;> rw [h]

/-- Every task has the same wake-up time. -/
theorem Alike.wakeupTime (i : Nat) : (t.pcb i).wakeupTime = (s.pcb i).wakeupTime := by
  rcases ha.pcb i with h | ⟨_, h⟩ <;> rw [h]

/-- The other marks are the same. -/
theorem Alike.status {st : Status} (hb : st ≠ .blocked) (hr : st ≠ .ready) (i : Nat) :
    (t.pcb i).status = st ↔ (s.pcb i).status = st := by
  rcases ha.pcb i with h | ⟨hst, h⟩
  · rw [h]
  · rw [h, hst]
    exact ⟨fun heq => absurd heq.symm hr, fun heq => absurd heq.symm hb⟩

/-- The same tasks have exited. -/
theorem Alike.exited (i : Nat) : (t.pcb i).status = .exited ↔ (s.pcb i).status = .exited :=
  ha.status (by simp) (by simp) i

/-- The same slots are available. -/
theorem Alike.available (i : Nat) :
    (t.pcb i).status = .available ↔ (s.pcb i).status = .available :=
  ha.status (by simp) (by simp) i

/-- The same tasks are running. -/
theorem Alike.running (i : Nat) : (t.pcb i).status = .running ↔ (s.pcb i).status = .running :=
  ha.status (by simp) (by simp) i

/-! ## Updates -/

/-- A PCB is given the same content in both. -/
theorem Alike.update (i : Nat) {p p' : Pcb} (hp : p' = p ∨ p.status = .blocked ∧
    p' = { p with status := .ready }) : Alike (setPcb i p s) (setPcb i p' t) := by
  refine ⟨?_, fun j => ?_⟩
  · unfold setPcb
    rw [ha.rest]
  · change Function.update t.pcb i p' j = Function.update s.pcb i p j ∨ _ ∧
      Function.update t.pcb i p' j = { Function.update s.pcb i p j with status := .ready }
    by_cases hj : j = i
    · subst hj
      rw [Function.update_self, Function.update_self]
      refine hp.imp id fun h => ⟨?_, h.2⟩
      change (Function.update s.pcb j p j).status = _
      rw [Function.update_self]
      exact h.1
    · rw [Function.update_of_ne hj, Function.update_of_ne hj]
      refine (ha.pcb j).imp id fun h => ⟨?_, h.2⟩
      change (Function.update s.pcb i p j).status = _
      rw [Function.update_of_ne hj]
      exact h.1

/-- Giving a task a status in both keeps the likeness. -/
theorem Alike.setStatus (i : Nat) (st : Status) : Alike (setStatus i st s) (setStatus i st t) := by
  refine ha.update i (Or.inl ?_)
  rcases ha.pcb i with h | ⟨_, h⟩ <;> rw [h]

/-- A change that does not look at the process table. -/
theorem Alike.same {f : State → State}
    (hf : ∀ p, f { s with pcb := p } = { f s with pcb := p }) (hp : (f s).pcb = s.pcb) :
    Alike (f s) (f t) := by
  have heq : f t = { f s with pcb := t.pcb } := by
    rw [← hf, ← ha.rest]
  refine ⟨by rw [heq], fun j => ?_⟩
  rw [heq, hp]
  exact ha.pcb j

/-- The same queues in both keep the likeness. -/
theorem Alike.setLinks (l : Links Node) : Alike { s with links := l } { t with links := l } :=
  ha.same (f := fun s => { s with links := l }) (fun _ => rfl) rfl

/-- The same lock in both keeps the likeness. -/
theorem Alike.setLock (k : Nat) (m : MutexLock) : Alike (setLock k m s) (setLock k m t) := by
  unfold Sched.setLock
  rw [ha.mlocks]
  exact ha.same (f := fun r => { r with mlocks := Function.update s.mlocks k m }) (fun _ => rfl) rfl

/-- The same barrier in both keeps the likeness. -/
theorem Alike.setBarrier (k : Nat) (b : Barrier) : Alike (setBarrier k b s) (setBarrier k b t) := by
  unfold Sched.setBarrier
  rw [ha.barriers]
  exact ha.same (f := fun r => { r with barriers := Function.update s.barriers k b })
    (fun _ => rfl) rfl

/-- The same condition variable in both keeps the likeness. -/
theorem Alike.setCondition (k : Nat) (c : Condition) :
    Alike (setCondition k c s) (setCondition k c t) := by
  unfold Sched.setCondition
  rw [ha.conditions]
  exact ha.same (f := fun r => { r with conditions := Function.update s.conditions k c })
    (fun _ => rfl) rfl

/-- Taking a task out of its queue keeps the likeness. -/
theorem Alike.delQueue (i : Nat) : Alike (delQueue i s) (delQueue i t) := by
  unfold Sched.delQueue
  rw [ha.links]
  exact ha.setLinks _

/-- Putting a task on a core keeps the likeness. -/
theorem Alike.dispatch (cpu : Nat) (next : Option Nat) :
    Alike (dispatch cpu next s) (dispatch cpu next t) := by
  unfold Sched.dispatch
  rw [ha.core]
  cases next with
  | none =>
      exact ha.same (f := fun r =>
        { r with coreRunning := Function.update s.coreRunning cpu .idle }) (fun _ => rfl) rfl
  | some i =>
      exact (ha.setStatus i .running).same (f := fun r =>
        { r with coreRunning := Function.update s.coreRunning cpu (.task i) }) (fun _ => rfl) rfl

end Table

/-- The same result, and states that are alike. -/
def AlikeWith {α : Type} (p p' : α × State) : Prop := p'.1 = p.1 ∧ Alike p.2 p'.2

/-! ## The queue operations and the scheduler -/

/-- `add_queue` does the same in both. -/
theorem addQueue_alike (ha : Alike s t) (h : Node) (i : Nat) :
    Matching Alike (addQueue h i s) (addQueue h i t) := by
  unfold addQueue
  rw [ha.links]
  cases listAddTail (.task i) h s.links with
  | ok l => exact ha.setLinks l
  | error e => rfl

/-- `get_head` takes the same task from both. -/
theorem getHead_alike (ha : Alike s t) (h : Node) :
    Matching AlikeWith (getHead h s) (getHead h t) := by
  unfold getHead
  rw [ha.links]
  split
  · exact ⟨rfl, ha.delQueue _⟩
  · rfl

/-- `do_unblock` wakes the same task in both. -/
theorem doUnblock_alike (ha : Alike s t) (h : Node) :
    Matching Alike (doUnblock h s) (doUnblock h t) := by
  unfold doUnblock
  refine (getHead_alike ha h).bind ?_
  rintro ⟨i, s₁⟩ ⟨j, t₁⟩ ⟨rfl, ha₁⟩
  exact addQueue_alike (ha₁.setStatus j .ready) .ready j

/-- The walk over the sleepers wakes the same ones, by induction on its rounds. -/
theorem checkLoop_alike (now fuel : Nat) : ∀ (it : Option Node) {s t : State}, Alike s t →
    Matching Alike (checkLoop now fuel it s) (checkLoop now fuel it t) := by
  induction fuel with
  | zero =>
      intro it s t _
      rfl
  | succ fuel ih =>
      intro it s t ha
      unfold checkLoop
      split
      · exact ha
      · next i =>
          simp only
          rw [ha.links, ha.wakeupTime]
          split
          · exact (addQueue_alike ((ha.setStatus i .ready).delQueue i) .ready i).bind
              fun _ _ h => ih _ h
          · exact ih _ ha
      · rfl

/-- `check_sleeping` wakes the same sleepers in both. -/
theorem checkSleeping_alike (ha : Alike s t) (now : Nat) :
    Matching Alike (checkSleeping now s) (checkSleeping now t) := by
  unfold checkSleeping
  rw [ha.links]
  exact checkLoop_alike now rounds _ ha

/-- The search in the ready queue ends at the same task, by induction on its rounds. -/
theorem pickLoop_alike (ha : Alike s t) (cpu fuel : Nat) : ∀ it : Option Node,
    Matching AlikeWith (pickLoop cpu fuel it s) (pickLoop cpu fuel it t) := by
  induction fuel with
  | zero =>
      intro it
      rfl
  | succ fuel ih =>
      intro it
      unfold pickLoop
      split
      · exact ⟨rfl, ha⟩
      · next i =>
          rw [ha.links, ha.mask]
          split
          · exact ⟨rfl, ha.delQueue i⟩
          · exact ih _
      · rfl

/-- The task of the core goes back to the ready queue in both or in neither. -/
theorem requeue_alike (ha : Alike s t) (last : Who) :
    Matching Alike (requeue last s) (requeue last t) := by
  unfold requeue
  cases last with
  | idle => exact ha
  | task i =>
      simp only [ha.running, ha.pid]
      split
      · exact addQueue_alike (ha.setStatus i .ready) .ready i
      · exact ha

/-- `do_scheduler` selects the same task in both. -/
theorem doScheduler_alike (ha : Alike s t) (cpu now : Nat) :
    Matching Alike (doScheduler cpu now s) (doScheduler cpu now t) := by
  unfold doScheduler
  rw [ha.core]
  refine (checkSleeping_alike ha now).bind fun s₁ t₁ h₁ => ?_
  refine (requeue_alike h₁ _).bind fun s₂ t₂ h₂ => ?_
  rw [h₂.links]
  split
  · exact h₂.dispatch cpu none
  · refine (pickLoop_alike h₂ cpu rounds _).bind ?_
    rintro ⟨i, s₃⟩ ⟨j, t₃⟩ ⟨rfl, h₃⟩
    exact h₃.dispatch cpu j

/-- The calling task is the same. -/
theorem current_alike (ha : Alike s t) (cpu : Nat) : current cpu t = current cpu s := by
  unfold current
  rw [ha.core]

/-- A task is blocked in the same queue. -/
theorem blockOn_alike (ha : Alike s t) (h : Node) (i : Nat) :
    Matching Alike (blockOn h i s) (blockOn h i t) :=
  addQueue_alike (ha.setStatus i .blocked) h i

/-- `do_block` does the same in both. -/
theorem doBlock_alike (ha : Alike s t) (cpu i : Nat) (h : Node) (now : Nat) :
    Matching Alike (doBlock cpu i h now s) (doBlock cpu i h now t) :=
  (blockOn_alike ha h i).bind fun _ _ h₁ => doScheduler_alike h₁ cpu now

/-- What follows may use the PCB that makes the call. -/
theorem bind_current {α : Type} {R : α → α → Prop} {f g : Nat → Except Stop α} (ha : Alike s t)
    (cpu : Nat) (hf : ∀ i, Matching R (f i) (g i)) :
    Matching R (current cpu s >>= f) (current cpu t >>= g) := by
  rw [current_alike ha]
  cases current cpu s with
  | ok i => exact hf i
  | error e => rfl

/-- `do_sleep` does the same in both. -/
theorem doSleep_alike (ha : Alike s t) (cpu sleepTime now now' : Nat) :
    Matching Alike (doSleep cpu sleepTime now now' s) (doSleep cpu sleepTime now now' t) := by
  unfold doSleep
  refine bind_current ha cpu fun i => ?_
  have h₁ : Alike (setPcb i { (setStatus i .blocked s).pcb i with
        wakeupTime := (sleepTime + now) % 2 ^ 64 } (setStatus i .blocked s))
      (setPcb i { (setStatus i .blocked t).pcb i with
        wakeupTime := (sleepTime + now) % 2 ^ 64 } (setStatus i .blocked t)) := by
    refine (ha.setStatus i .blocked).update i ?_
    rcases (ha.setStatus i .blocked).pcb i with h | ⟨hst, h⟩
    · exact Or.inl (by rw [h])
    · exact Or.inr ⟨hst, by rw [h]⟩
  exact (addQueue_alike h₁ .sleep i).bind fun _ _ h₂ => doScheduler_alike h₂ cpu now'

/-! ## Processes -/

theorem findFrom_congr {P Q : Nat → Bool} (h : ∀ i, P i = Q i) (left k : Nat) :
    findFrom P left k = findFrom Q left k := by
  rw [funext h]

/-- The same slot is taken for a new task. -/
theorem freeSlot_alike (ha : Alike s t) : freeSlot t = freeSlot s := by
  unfold freeSlot
  refine findFrom_congr (fun i => ?_) _ _
  simp only [ha.exited, ha.available]

/-- The same slot is found for a pid. -/
theorem findPid_alike (ha : Alike s t) (pid : Int) : findPid pid t = findPid pid s := by
  unfold findPid
  refine findFrom_congr (fun i => ?_) _ _
  rw [ha.pid]

/-- A new task is set up in the same way. -/
theorem newTask_alike (ha : Alike s t) (i : Nat) (pid : Int) (mask : Nat) :
    Matching Alike (newTask i pid mask s) (newTask i pid mask t) := by
  unfold newTask
  have h₁ := ha.setStatus i .ready
  refine addQueue_alike (Alike.update ?_ i (Or.inl rfl)) .ready i
  rw [h₁.links]
  exact h₁.setLinks _

/-- `do_exec` returns the same pid in both. -/
theorem doExec_alike (ha : Alike s t) (cpu : Nat) :
    Matching AlikeWith (doExec cpu s) (doExec cpu t) := by
  unfold doExec
  refine bind_current ha cpu fun c => ?_
  rw [freeSlot_alike ha, ha.processId, ha.mask]
  cases freeSlot s with
  | none => rfl
  | some i =>
      simp only
      split
      · rfl
      · have h₁ : Alike { s with processId := s.processId + 1 }
            { t with processId := s.processId + 1 } :=
          ha.same (f := fun r => { r with processId := s.processId + 1 }) (fun _ => rfl) rfl
        exact (newTask_alike h₁ i _ _).bind fun _ _ h₂ => ⟨rfl, h₂⟩

/-- `do_thread_create` does the same in both. -/
theorem doThreadCreate_alike (ha : Alike s t) (cpu : Nat) :
    Matching Alike (doThreadCreate cpu s) (doThreadCreate cpu t) := by
  unfold doThreadCreate
  refine bind_current ha cpu fun c => ?_
  rw [freeSlot_alike ha, ha.mask, ha.pid]
  cases freeSlot s with
  | none => rfl
  | some i => exact newTask_alike ha i _ _

/-- The same waiting tasks are woken, by induction on the rounds of the loop. -/
theorem drainLoop_alike (side : Links Node → Node → Option Node) (i fuel : Nat) :
    ∀ {s t : State}, Alike s t → Matching Alike (drainLoop side i fuel s) (drainLoop side i fuel t) := by
  induction fuel with
  | zero =>
      intro s t _
      rfl
  | succ fuel ih =>
      intro s t ha
      unfold drainLoop
      rw [ha.links]
      split
      · exact ha
      · split
        · simp only [ne_eq, ha.exited]
          split
          · exact (doUnblock_alike ha _).bind fun _ _ h₁ => ih h₁
          · exact ih ha
        · rfl

/-- `do_exit` does the same in both. -/
theorem doExit_alike (ha : Alike s t) (cpu now : Nat) :
    Matching Alike (doExit cpu now s) (doExit cpu now t) := by
  unfold doExit
  refine bind_current ha cpu fun i => ?_
  exact (drainLoop_alike _ i rounds ha).bind fun _ _ h₁ =>
    doScheduler_alike ((h₁.delQueue i).setStatus i .exited) cpu now

/-! ## Mutexes -/

/-- `do_mutex_lock_init` returns the same handle in both. -/
theorem doMutexLockInit_alike (ha : Alike s t) (key : Int) :
    Matching AlikeWith (doMutexLockInit key s) (doMutexLockInit key t) := by
  have hloop : ∀ left k, lockInitLoop t key left k = lockInitLoop s key left k := by
    intro left
    induction left with
    | zero => exact fun _ => rfl
    | succ left ih =>
        intro k
        unfold lockInitLoop
        rw [ha.mlocks, ih]
  unfold doMutexLockInit
  rw [hloop]
  split
  · rfl
  · exact ⟨rfl, ha⟩
  · exact ⟨rfl, ha.setLock _ _⟩

/-- `do_mutex_lock_acquire` does the same in both. -/
theorem doMutexLockAcquire_alike (ha : Alike s t) (cpu k now : Nat) :
    Matching Alike (doMutexLockAcquire cpu k now s) (doMutexLockAcquire cpu k now t) := by
  unfold doMutexLockAcquire
  refine bind_current ha cpu fun i => ?_
  rw [ha.mlocks, ha.pid]
  split
  · rfl
  · split
    · exact ha.setLock _ _
    · exact doBlock_alike ha cpu i _ now

/-- `do_mutex_lock_release` does the same in both. -/
theorem doMutexLockRelease_alike (ha : Alike s t) (k : Nat) :
    Matching Alike (doMutexLockRelease k s) (doMutexLockRelease k t) := by
  unfold doMutexLockRelease
  rw [ha.links, ha.mlocks]
  split
  · rfl
  · split
    · exact ha.setLock _ _
    · split
      · rw [ha.pid]
        exact doUnblock_alike (ha.setLock _ _) _
      · rfl

/-- The same locks are released, by induction on the locks left. -/
theorem releasePcbLock_alike (pid : Int) (left : Nat) : ∀ (k : Nat) {s t : State}, Alike s t →
    Matching Alike (releasePcbLock pid left k s) (releasePcbLock pid left k t) := by
  induction left with
  | zero => exact fun _ _ _ ha => ha
  | succ left ih =>
      intro k s t ha
      unfold releasePcbLock
      rw [ha.mlocks]
      split
      · exact (doMutexLockRelease_alike ha k).bind fun _ _ h₁ => ih _ h₁
      · exact ih _ ha

/-! ## Ending and awaiting -/

/-- The task found is ended in the same way. -/
theorem endVictim_alike (ha : Alike s t) (cpu i now : Nat) :
    Matching AlikeWith (endVictim cpu i now s) (endVictim cpu i now t) := by
  have hend : Matching AlikeWith (.ok ((1 : Int), setStatus i .exited (delQueue i s)) : Except Stop _)
      (.ok (1, setStatus i .exited (delQueue i t))) := ⟨rfl, (ha.delQueue i).setStatus i .exited⟩
  unfold endVictim
  rcases ha.pcb i with h | ⟨hst, h⟩
  · rw [h]
    split
    · exact hend
    · exact hend
    · exact (doScheduler_alike (ha.setStatus i .exited) cpu now).bind fun _ _ h₁ => ⟨rfl, h₁⟩
    · exact ⟨rfl, ha⟩
    · exact ⟨rfl, ha⟩
  · rw [h, hst]
    exact hend

/-- `do_kill` returns the same in both. -/
theorem doKill_alike (ha : Alike s t) (cpu : Nat) (pid : Int) (now : Nat) :
    Matching AlikeWith (doKill cpu pid now s) (doKill cpu pid now t) := by
  unfold doKill
  rw [findPid_alike ha]
  cases findPid pid s with
  | none => exact ⟨rfl, ha⟩
  | some i =>
      refine (drainLoop_alike _ i rounds ha).bind fun s₁ t₁ h₁ => ?_
      have h₂ : Alike (setPcb i { s₁.pcb i with pid := 0 } s₁)
          (setPcb i { t₁.pcb i with pid := 0 } t₁) := by
        refine h₁.update i ?_
        rcases h₁.pcb i with h | ⟨hst, h⟩
        · exact Or.inl (by rw [h])
        · exact Or.inr ⟨hst, by rw [h]⟩
      exact (releasePcbLock_alike pid lockNum 0 h₂).bind fun _ _ h₃ =>
        endVictim_alike h₃ cpu i now

/-- `do_waitpid` returns the same in both. -/
theorem doWaitpid_alike (ha : Alike s t) (cpu : Nat) (pid : Int) (now : Nat) :
    Matching AlikeWith (doWaitpid cpu pid now s) (doWaitpid cpu pid now t) := by
  unfold doWaitpid
  rw [findPid_alike ha]
  cases findPid pid s with
  | none => exact ⟨rfl, ha⟩
  | some i =>
      simp only [ne_eq, ha.exited, ha.available]
      split
      · refine bind_current ha cpu fun c => ?_
        refine (blockOn_alike ha _ c).bind fun _ _ h₁ => ?_
        exact (doScheduler_alike h₁ cpu now).bind fun _ _ h₂ => ⟨rfl, h₂⟩
      · exact (doScheduler_alike ha cpu now).bind fun _ _ h₁ => ⟨rfl, h₁⟩

/-! ## Barriers -/

/-- The same waiters of the barrier are woken, by induction on the rounds. -/
theorem barrierLoop_alike (k fuel : Nat) : ∀ {s t : State}, Alike s t →
    Matching Alike (barrierLoop k fuel s) (barrierLoop k fuel t) := by
  induction fuel with
  | zero =>
      intro s t _
      rfl
  | succ fuel ih =>
      intro s t ha
      unfold barrierLoop
      rw [ha.links]
      split
      · exact ha
      · refine (doUnblock_alike ha _).bind fun s₁ t₁ h₁ => ?_
        rw [h₁.barriers]
        exact ih (h₁.setBarrier _ _)

/-- `do_barrier_wait` does the same in both. -/
theorem doBarrierWait_alike (ha : Alike s t) (cpu k now : Nat) :
    Matching Alike (doBarrierWait cpu k now s) (doBarrierWait cpu k now t) := by
  unfold doBarrierWait
  refine bind_current ha cpu fun i => ?_
  rw [ha.barriers]
  split
  · rfl
  · split
    · exact (barrierLoop_alike k rounds ha).bind fun _ _ h₁ => doScheduler_alike h₁ cpu now
    · split
      · rfl
      · refine (blockOn_alike ha _ i).bind fun s₁ t₁ h₁ => ?_
        simp only [h₁.barriers]
        exact doScheduler_alike (h₁.setBarrier _ _) cpu now

/-- **Blocked or ready.**  Every kernel entry goes alike from states that are alike. -/
theorem step_alike (ha : Alike s t) (cpu : Nat) (c : Call) :
    Matching Alike (step cpu c s) (step cpu c t) := by
  unfold step
  rw [ha.core]
  split
  · rfl
  have hdrop : ∀ {α : Type} {x y : Except Stop (α × State)}, Matching AlikeWith x y →
      Matching Alike (x >>= fun p => .ok p.2) (y >>= fun p => .ok p.2) :=
    fun h => h.bind fun _ _ h₁ => h₁.2
  cases c with
  | exec => exact hdrop (doExec_alike ha cpu)
  | threadCreate => exact doThreadCreate_alike ha cpu
  | exit now => exact doExit_alike ha cpu now
  | kill pid now => exact hdrop (doKill_alike ha cpu pid now)
  | waitpid pid now => exact hdrop (doWaitpid_alike ha cpu pid now)
  | sleep sleepTime now now' => exact doSleep_alike ha cpu sleepTime now now'
  | schedule now => exact doScheduler_alike ha cpu now
  | tick now now' =>
      exact (checkSleeping_alike ha now).bind fun _ _ h₁ => doScheduler_alike h₁ cpu now'
  | lockInit key => exact hdrop (doMutexLockInit_alike ha key)
  | acquire k now => exact doMutexLockAcquire_alike ha cpu k now
  | release k => exact doMutexLockRelease_alike ha k
  | barrierInit key goal =>
      change Alike (doBarrierInit key goal s).2 (doBarrierInit key goal t).2
      unfold doBarrierInit
      rw [ha.barriers]
      split
      · exact ha
      · exact ha.setBarrier _ _
  | barrierWait k now => exact doBarrierWait_alike ha cpu k now
  | barrierDestroy k =>
      change Matching Alike (doBarrierDestroy k s) (doBarrierDestroy k t)
      unfold doBarrierDestroy
      rw [ha.barriers]
      split
      · rfl
      · split
        · exact ha
        · exact ha.setBarrier _ _

end Sched
