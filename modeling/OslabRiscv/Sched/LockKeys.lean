import OslabRiscv.Sched.Mutex
import OslabRiscv.Sched.Pointers

/-!
# Mutex handles

`do_mutex_lock_init` takes the first table entry that has the key or whose owner
is -1, which an entry has before its first use but also after every release.
Two calls agree on which index stands for which key exactly as long as no call
comes upon a released entry of another key, or upon a free one in front of the
entry that has its key.
-/

namespace Sched

open IntrusiveList Outcome

/-- The handle a call returns, with its key. -/
def handles (c : Call) (s : State) : List (Int × Nat) :=
  match c with
  | .lockInit key =>
    match doMutexLockInit key s with
    | .ok (k, _) => [(key, k)]
    | .error _ => []
  | _ => []

/-- A call on one of the cores, with the handles returned so far. -/
def stepLogged (e : Nat × Call) (p : State × List (Int × Nat)) :
    Except Stop (State × List (Int × Nat)) := do
  let s' ← step e.1 e.2 p.1
  .ok (s', p.2 ++ handles e.2 p.1)

/-- Entry `k` has no owner, and no entry before it has the key or no owner. -/
def FirstFree (key : Int) (s : State) (k : Nat) : Prop :=
  (s.mlocks k).owner = -1 ∧
    ∀ j, j < k → (s.mlocks j).key ≠ key ∧ (s.mlocks j).owner ≠ -1

/-- The first entry that has the key or no owner has the key, or was never used
while no entry has the key. -/
def SlotsKept (key : Int) (s : State) : Prop :=
  ∀ k, k < lockNum → FirstFree key s k → (s.mlocks k).key = key ∨
    ((s.mlocks k).key = 0 ∧ ∀ j, j < lockNum → (s.mlocks j).key ≠ key)

instance (key : Int) (s : State) (k : Nat) : Decidable (FirstFree key s k) :=
  inferInstanceAs (Decidable (_ ∧ _))

instance (key : Int) (s : State) : Decidable (SlotsKept key s) :=
  inferInstanceAs (Decidable (∀ k, k < lockNum → _))

/-- Keys are not zero, which marks an entry never used, and no call comes upon an
entry of another key. -/
def KeysKept (p : State × List (Int × Nat)) : Nat × Call → Prop
  | (_, .lockInit key) => key ≠ 0 ∧ SlotsKept key p.1
  | _ => True

instance KeysKept.decidable (p : State × List (Int × Nat)) : ∀ e, Decidable (KeysKept p e)
  | (_, .lockInit key) => (inferInstance : Decidable (key ≠ 0 ∧ SlotsKept key p.1))
  | (_, .exec) | (_, .threadCreate) | (_, .exit _) | (_, .kill _ _) | (_, .waitpid _ _)
  | (_, .sleep _ _ _) | (_, .schedule _) | (_, .tick _ _) | (_, .acquire _ _) | (_, .release _)
  | (_, .barrierInit _ _) | (_, .barrierWait _ _) | (_, .barrierDestroy _) => instDecidableTrue

/-- No two entries have the same key, and the handles returned still fit. -/
structure Keyed (s : State) (log : List (Int × Nat)) : Prop where
  inj : ∀ j k, j < lockNum → k < lockNum → (s.mlocks j).key = (s.mlocks k).key →
    (s.mlocks j).key = 0 ∨ j = k
  log : ∀ p ∈ log, p.1 ≠ 0 ∧ p.2 < lockNum ∧ (s.mlocks p.2).key = p.1

/-! ## Who changes keys -/

/-- Every table entry has the key it had. -/
def SameKeys (s₀ s : State) : Prop := ∀ k, (s.mlocks k).key = (s₀.mlocks k).key

section SameKeys

variable {s₀ s : State} {i cpu : Nat} {h : Node}

/-- A mutex that changes keeps its key. -/
theorem SameKeys.setLock (hm : SameKeys s₀ s) {k : Nat} {m : MutexLock}
    (hkey : m.key = (s.mlocks k).key) : SameKeys s₀ (setLock k m s) := by
  intro j
  change (Function.update s.mlocks k m j).key = _
  by_cases hjk : j = k
  · rw [hjk, Function.update_self, hkey]
    exact hm k
  · rw [Function.update_of_ne hjk]
    exact hm j

/-- Joining a queue changes no key. -/
theorem addQueue_keys (hm : SameKeys s₀ s) : Holds AnyStop (SameKeys s₀) (addQueue h i s) := by
  unfold addQueue
  cases listAddTail (.task i) h s.links with
  | error e => trivial
  | ok l => exact hm

/-- Waking the sleepers changes no key, by induction on the rounds. -/
theorem checkLoop_keys (now fuel : Nat) : ∀ {it : Option Node} {s : State}, SameKeys s₀ s →
    Holds AnyStop (SameKeys s₀) (checkLoop now fuel it s) := by
  induction fuel with
  | zero =>
      intro it s _
      trivial
  | succ fuel ih =>
      intro it s hm
      unfold checkLoop
      split
      · exact hm
      · rename_i i
        simp only
        split_ifs
        · exact Holds.bind (addQueue_keys (s := delQueue i (setStatus i .ready s)) hm) fun _ => ih
        · exact ih hm
      · trivial

/-- The search for the next task changes no key, by induction on the rounds. -/
theorem pickLoop_keys (cpu fuel : Nat) : ∀ {it : Option Node}, SameKeys s₀ s →
    Holds AnyStop (fun r => SameKeys s₀ r.2) (pickLoop cpu fuel it s) := by
  induction fuel with
  | zero =>
      intro it _
      trivial
  | succ fuel ih =>
      intro it hm
      unfold pickLoop
      split
      · exact hm
      · split_ifs
        · exact hm
        · exact ih hm
      · trivial

/-- Going back to a queue changes no key. -/
theorem requeue_keys (hm : SameKeys s₀ s) (last : Who) :
    Holds AnyStop (SameKeys s₀) (requeue last s) := by
  unfold requeue
  cases last with
  | idle => exact hm
  | task i =>
      simp only
      split_ifs
      · exact addQueue_keys (s := setStatus i .ready s) hm
      · exact hm

/-- Taking a core changes no key. -/
theorem dispatch_keys (hm : SameKeys s₀ s) (next : Option Nat) : SameKeys s₀ (dispatch cpu next s) := by
  cases next with
  | some i => exact hm
  | none => exact hm

/-- A switch changes no key. -/
theorem doScheduler_keys (hm : SameKeys s₀ s) (cpu now : Nat) :
    Holds AnyStop (SameKeys s₀) (doScheduler cpu now s) := by
  unfold doScheduler
  refine Holds.bind (checkLoop_keys now rounds hm) fun s₁ h₁ => ?_
  refine Holds.bind (requeue_keys h₁ _) fun s₂ h₂ => ?_
  split_ifs
  · exact dispatch_keys h₂ none
  · exact Holds.bind (pickLoop_keys cpu rounds h₂) fun r hr => dispatch_keys hr r.1

/-- Going to wait changes no key. -/
theorem blockOn_keys (hm : SameKeys s₀ s) : Holds AnyStop (SameKeys s₀) (blockOn h i s) :=
  addQueue_keys (s := setStatus i .blocked s) hm

/-- Waking a waiter changes no key. -/
theorem doUnblock_keys (hm : SameKeys s₀ s) : Holds AnyStop (SameKeys s₀) (doUnblock h s) := by
  unfold doUnblock
  refine Holds.bind (P := fun r => SameKeys s₀ r.2) ?_ fun r hr =>
    addQueue_keys (s := setStatus r.1 .ready r.2) hr
  unfold getHead
  split
  · exact hm
  · trivial

/-- Waking all waiters changes no key, by induction on their number. -/
theorem drainLoop_keys (side : Links Node → Node → Option Node) (i fuel : Nat) :
    ∀ {s : State}, SameKeys s₀ s → Holds AnyStop (SameKeys s₀) (drainLoop side i fuel s) := by
  induction fuel with
  | zero =>
      intro s _
      trivial
  | succ fuel ih =>
      intro s hm
      unfold drainLoop
      split_ifs
      · exact hm
      · split
        · split_ifs
          · exact Holds.bind (doUnblock_keys hm) fun _ => ih
          · exact ih hm
        · trivial

/-- A new task changes no key. -/
theorem newTask_keys (hm : SameKeys s₀ s) (pid : Int) (mask : Nat) :
    Holds AnyStop (SameKeys s₀) (newTask i pid mask s) := by
  unfold newTask
  exact addQueue_keys hm

/-- The running task is read. -/
theorem current_any (cpu : Nat) (s : State) : Holds AnyStop (fun _ => True) (current cpu s) :=
  Holds.any (fun _ => trivial) _

/-- A release changes owner and count, but no key. -/
theorem doMutexLockRelease_keys (hm : SameKeys s₀ s) (k : Nat) :
    Holds AnyStop (SameKeys s₀) (doMutexLockRelease k s) := by
  unfold doMutexLockRelease
  split_ifs
  · trivial
  · exact hm.setLock rfl
  · split
    · exact doUnblock_keys (hm.setLock rfl)
    · trivial

/-- The locks of a task that ends keep their keys, by induction on the rest of the table. -/
theorem releasePcbLock_keys (pid : Int) (left : Nat) : ∀ {k : Nat} {s : State}, SameKeys s₀ s →
    Holds AnyStop (SameKeys s₀) (releasePcbLock pid left k s) := by
  induction left with
  | zero => exact fun hm => hm
  | succ left ih =>
      intro k s hm
      unfold releasePcbLock
      split_ifs
      · exact Holds.bind (doMutexLockRelease_keys hm k) fun _ => ih
      · exact ih hm

/-- `do_kill` changes no key. -/
theorem doKill_keys (hm : SameKeys s₀ s) (cpu : Nat) (pid : Int) (now : Nat) :
    Holds AnyStop (fun r => SameKeys s₀ r.2) (doKill cpu pid now s) := by
  unfold doKill
  split
  · exact hm
  · rename_i i _
    refine Holds.bind (drainLoop_keys _ i rounds hm) fun s₁ h₁ => ?_
    refine Holds.bind (releasePcbLock_keys pid lockNum
      (s := setPcb i { s₁.pcb i with pid := 0 } s₁) h₁) fun s₂ h₂ => ?_
    split
    · exact h₂
    · exact h₂
    · exact Holds.bind (doScheduler_keys (s := setStatus i .exited s₂) h₂ cpu now) fun s₃ h₃ => h₃
    · exact h₂
    · exact h₂

/-- Leaving a barrier changes no key, by induction on the tasks. -/
theorem barrierLoop_keys (k fuel : Nat) : ∀ {s : State}, SameKeys s₀ s →
    Holds AnyStop (SameKeys s₀) (barrierLoop k fuel s) := by
  induction fuel with
  | zero =>
      intro s _
      trivial
  | succ fuel ih =>
      intro s hm
      unfold barrierLoop
      split_ifs
      · exact hm
      · exact Holds.bind (doUnblock_keys hm) fun s₁ h₁ => ih h₁

/-- Only `do_mutex_lock_init` changes keys, whatever core runs and whatever state it is in. -/
theorem handle_keys (hm : SameKeys s₀ s) (cpu : Nat) {c : Call} (hc : ∀ key, c ≠ .lockInit key) :
    Holds AnyStop (SameKeys s₀) (handle cpu c s) := by
  cases c with
  | exec =>
      refine Holds.bind (P := fun r : Int × State => SameKeys s₀ r.2) ?_ fun r hr => hr
      unfold doExec
      refine (current_any cpu s).bind fun c _ => ?_
      split
      · trivial
      · split_ifs
        · trivial
        · exact Holds.bind (newTask_keys (s := { s with processId := s.processId + 1 }) hm _ _)
            fun s₁ h₁ => h₁
  | threadCreate =>
      refine (current_any cpu s).bind fun c _ => ?_
      split
      · trivial
      · exact newTask_keys hm _ _
  | exit now =>
      refine (current_any cpu s).bind fun i _ => ?_
      exact Holds.bind (drainLoop_keys _ i rounds hm) fun s₁ h₁ =>
        doScheduler_keys (s := setStatus i .exited (delQueue i s₁)) h₁ cpu now
  | kill pid now => exact Holds.bind (doKill_keys hm cpu pid now) fun r hr => hr
  | waitpid pid now =>
      refine Holds.bind (P := fun r : Int × State => SameKeys s₀ r.2) ?_ fun r hr => hr
      unfold doWaitpid
      split
      · exact hm
      · split_ifs
        · refine (current_any cpu s).bind fun c _ => ?_
          refine (blockOn_keys hm).bind fun s₁ h₁ => ?_
          exact Holds.bind (doScheduler_keys h₁ cpu now) fun s₂ h₂ => h₂
        · exact Holds.bind (doScheduler_keys hm cpu now) fun s₂ h₂ => h₂
  | sleep t now now' =>
      refine (current_any cpu s).bind fun i _ => ?_
      exact Holds.bind (addQueue_keys (s := setPcb i _ (setStatus i .blocked s)) hm) fun s₁ h₁ =>
        doScheduler_keys h₁ cpu now'
  | schedule now => exact doScheduler_keys hm cpu now
  | tick now now' =>
      exact Holds.bind (checkLoop_keys now rounds hm) fun s₁ h₁ => doScheduler_keys h₁ cpu now'
  | lockInit key => exact absurd rfl (hc key)
  | acquire k now =>
      refine (current_any cpu s).bind fun i _ => ?_
      split_ifs
      · trivial
      · exact hm.setLock rfl
      · exact (blockOn_keys hm).bind fun s₁ h₁ => doScheduler_keys h₁ cpu now
  | release k => exact doMutexLockRelease_keys hm k
  | barrierInit key goal =>
      rcases doBarrierInit_cases key goal s with heq | ⟨k, b, heq⟩
      · change SameKeys s₀ (doBarrierInit key goal s).2
        rw [heq]
        exact hm
      · change SameKeys s₀ (doBarrierInit key goal s).2
        rw [heq]
        exact hm
  | barrierWait k now =>
      refine (current_any cpu s).bind fun i _ => ?_
      split_ifs
      · trivial
      · exact Holds.bind (barrierLoop_keys k rounds hm) fun s₁ h₁ => doScheduler_keys h₁ cpu now
      · trivial
      · exact (blockOn_keys hm).bind fun s₁ h₁ => doScheduler_keys (s := setBarrier k _ s₁) h₁ cpu now
  | barrierDestroy k =>
      change Holds AnyStop (SameKeys s₀) (doBarrierDestroy k s)
      unfold doBarrierDestroy
      split_ifs
      · trivial
      · exact hm
      · exact hm

end SameKeys

/-! ## One call -/

section

variable {s s' : State} {log : List (Int × Nat)}

/-- The search stops at the first entry that has the key or no owner. -/
theorem lockInitLoop_first {key : Int} {left k m : Nat} {found : Bool}
    (h : lockInitLoop s key left k = some (m, found)) :
    ∀ j, k ≤ j → j < m → (s.mlocks j).key ≠ key ∧ (s.mlocks j).owner ≠ -1 := by
  induction left generalizing k with
  | zero => cases h
  | succ left ih =>
      unfold lockInitLoop at h
      by_cases hkey : (s.mlocks k).key = key
      · rw [if_pos hkey] at h
        cases h
        intro j h₁ h₂
        omega
      · rw [if_neg hkey] at h
        by_cases hown : (s.mlocks k).owner = -1
        · rw [if_pos hown] at h
          cases h
          intro j h₁ h₂
          omega
        · rw [if_neg hown] at h
          intro j h₁ h₂
          by_cases hjk : j = k
          · rw [hjk]
            exact ⟨hkey, hown⟩
          · exact ih h j (by omega) h₂

/-- `do_mutex_lock_init` returns the handle of its key. -/
theorem Keyed.init {key : Int} {k : Nat} {found : Bool} (hk : Keyed s log) (hkey : key ≠ 0)
    (hslots : SlotsKept key s) (hf : lockInitLoop s key lockNum 0 = some (k, found)) :
    Keyed (if found then s else setLock k ⟨false, 0, key⟩ s) (log ++ [(key, k)]) := by
  obtain ⟨_, hlt, hfound⟩ := lockInitLoop_some hf
  cases found with
  | true =>
      refine ⟨hk.inj, ?_⟩
      intro p hp
      rcases List.mem_append.mp hp with hp | hp
      · exact hk.log p hp
      · rw [List.mem_singleton.mp hp]
        exact ⟨hkey, by omega, hfound⟩
  | false =>
      have hfirst := lockInitLoop_first hf
      -- the entry was never used, so no handle stands for it
      obtain ⟨hzero, hnone⟩ : (s.mlocks k).key = 0 ∧ ∀ j, j < lockNum → (s.mlocks j).key ≠ key :=
        (hslots k (by omega) ⟨hfound.1, fun j hj => hfirst j (Nat.zero_le j) hj⟩).resolve_left
          hfound.2
      have hself : (setLock k ⟨false, 0, key⟩ s).mlocks k = ⟨false, 0, key⟩ :=
        Function.update_self _ _ _
      have hother : ∀ j, j ≠ k → (setLock k ⟨false, 0, key⟩ s).mlocks j = s.mlocks j :=
        fun j hj => Function.update_of_ne hj _ _
      refine ⟨?_, ?_⟩
      · intro i j hi hj heq
        change ((setLock k ⟨false, 0, key⟩ s).mlocks i).key =
          ((setLock k ⟨false, 0, key⟩ s).mlocks j).key at heq
        change ((setLock k ⟨false, 0, key⟩ s).mlocks i).key = 0 ∨ i = j
        by_cases hik : i = k
        · by_cases hjk : j = k
          · exact Or.inr (hik.trans hjk.symm)
          · rw [hik, hself, hother j hjk] at heq
            exact absurd heq.symm (hnone j hj)
        · by_cases hjk : j = k
          · rw [hjk, hself, hother i hik] at heq
            exact absurd heq (hnone i hi)
          · rw [hother i hik, hother j hjk] at heq
            rw [hother i hik]
            exact hk.inj i j hi hj heq
      · intro p hp
        change p.1 ≠ 0 ∧ p.2 < lockNum ∧ ((setLock k ⟨false, 0, key⟩ s).mlocks p.2).key = p.1
        rcases List.mem_append.mp hp with hp | hp
        · obtain ⟨h₁, h₂, h₃⟩ := hk.log p hp
          have hpk : p.2 ≠ k := by
            intro heq
            rw [heq, hzero] at h₃
            exact h₁ h₃.symm
          rw [hother p.2 hpk]
          exact ⟨h₁, h₂, h₃⟩
        · rw [List.mem_singleton.mp hp, hself]
          exact ⟨hkey, by omega, rfl⟩

/-- What `do_mutex_lock_init` returned, and what it left. -/
theorem step_lockInit {cpu : Nat} {key : Int} (hstep : step cpu (.lockInit key) s = .ok s') :
    ∃ k found, lockInitLoop s key lockNum 0 = some (k, found) ∧
      s' = (if found then s else setLock k ⟨false, 0, key⟩ s) ∧
      handles (.lockInit key) s = [(key, k)] := by
  unfold step at hstep
  by_cases hidle : s.coreRunning cpu = .idle ∧ (Call.lockInit key).fromIdle = false
  · rw [if_pos hidle] at hstep
    cases hstep
  rw [if_neg hidle] at hstep
  change doMutexLockInit key s >>= _ = _ at hstep
  cases hf : lockInitLoop s key lockNum 0 with
  | none =>
      unfold doMutexLockInit at hstep
      rw [hf] at hstep
      cases hstep
  | some r =>
      obtain ⟨k, found⟩ := r
      have hret : doMutexLockInit key s =
          .ok (k, if found then s else setLock k ⟨false, 0, key⟩ s) := by
        unfold doMutexLockInit
        rw [hf]
        cases found <;> rfl
      rw [hret] at hstep
      cases hstep
      refine ⟨k, found, rfl, rfl, ?_⟩
      unfold handles
      simp only [hret]

/-- Any other call leaves the keys alone and returns no handle. -/
theorem step_keys {cpu : Nat} {c : Call} (hc : ∀ key, c ≠ .lockInit key)
    (hstep : step cpu c s = .ok s') : SameKeys s s' ∧ handles c s = [] := by
  refine ⟨?_, ?_⟩
  · unfold step at hstep
    split_ifs at hstep
    exact (handle_keys (fun _ => rfl) cpu hc).of_ok hstep
  · cases c with
    | lockInit key => exact absurd rfl (hc key)
    | _ => rfl

theorem Keyed.congr (hk : Keyed s log) (hkeys : SameKeys s s') : Keyed s' log := by
  refine ⟨fun i j hi hj heq => ?_, fun r hr => ?_⟩
  · rw [hkeys i] at heq ⊢
    rw [hkeys j] at heq
    exact hk.inj i j hi hj heq
  · obtain ⟨h₁, h₂, h₃⟩ := hk.log r hr
    exact ⟨h₁, h₂, (hkeys r.2).trans h₃⟩

/-- The step lemma of handles and keys. -/
theorem stepLogged_keyed (p : State × List (Int × Nat)) (e : Nat × Call)
    (p' : State × List (Int × Nat)) (hk : Keyed p.1 p.2) (hc : KeysKept p e)
    (hstep : stepLogged e p = .ok p') : Keyed p'.1 p'.2 := by
  obtain ⟨cpu, c⟩ := e
  obtain ⟨s', hstep₁, hret⟩ := exists_of_bind_ok hstep
  cases hret
  change Keyed s' (p.2 ++ handles c p.1)
  by_cases hinit : ∃ key, c = .lockInit key
  · obtain ⟨key, rfl⟩ := hinit
    obtain ⟨k, found, hf, rfl, hlog⟩ := step_lockInit hstep₁
    rw [hlog]
    exact hk.init hc.1 hc.2 hf
  · obtain ⟨hkeys, hnone⟩ := step_keys (fun key heq => hinit ⟨key, heq⟩) hstep₁
    rw [hnone, List.append_nil]
    exact hk.congr hkeys

end

/-- **Handles identify keys** in every run, on any number of cores, in which no
`do_mutex_lock_init` comes upon an entry of another key or a free one in front of its own. -/
theorem handles_identify_keys (es : List (Nat × Call)) (s : State) (log : List (Int × Nat))
    (hes : AllSteps stepLogged KeysKept es (initState, []))
    (hrun : run stepLogged es (initState, []) = .ok (s, log)) :
    ∀ a ∈ log, ∀ b ∈ log, a.1 = b.1 ↔ a.2 = b.2 := by
  have hstart : Keyed initState [] := by
    refine ⟨?_, ?_⟩
    · intro j k _ _ _
      exact Or.inl rfl
    · intro p hp
      cases hp
  have hk := run_invariant (I := fun p : State × List (Int × Nat) => Keyed p.1 p.2)
    stepLogged_keyed es (initState, []) (s, log) hstart hes hrun
  intro a ha b hb
  obtain ⟨ha₁, ha₂, ha₃⟩ := hk.log a ha
  obtain ⟨_, hb₂, hb₃⟩ := hk.log b hb
  constructor
  · intro heq
    refine (hk.inj a.2 b.2 ha₂ hb₂ ?_).resolve_left ?_
    · rw [ha₃, hb₃, heq]
    · rw [ha₃]
      exact ha₁
  · intro heq
    rw [← ha₃, ← hb₃, heq]

/-- Two keys, one of them asked for again by a task on the other core while its mutex is held. -/
theorem handles_identify_keys_held :
    ∃ s, run stepLogged [(0, .tick 0 0), (0, .exec), (1, .tick 0 0), (0, .lockInit 5),
        (1, .lockInit 6), (0, .acquire 0 0), (0, .lockInit 6), (1, .lockInit 5)] (initState, []) =
          .ok (s, [(5, 0), (6, 1), (6, 1), (5, 0)]) ∧
      ∀ a ∈ [((5 : Int), 0), (6, 1), (6, 1), (5, 0)], ∀ b ∈ [((5 : Int), 0), (6, 1), (6, 1), (5, 0)],
        a.1 = b.1 ↔ a.2 = b.2 := by
  obtain ⟨⟨s, log⟩, hrun, hlog⟩ := exists_of_returns
    (P := fun p : State × List (Int × Nat) => p.2 = [(5, 0), (6, 1), (6, 1), (5, 0)])
    (x := run stepLogged [(0, .tick 0 0), (0, .exec), (1, .tick 0 0), (0, .lockInit 5),
        (1, .lockInit 6), (0, .acquire 0 0), (0, .lockInit 6), (1, .lockInit 5)] (initState, []))
    (by decide +kernel)
  cases hlog
  exact ⟨s, hrun, handles_identify_keys _ s _ (by decide +kernel) hrun⟩

/-- After a release the entry of key 5 is given to key 6. -/
theorem handles_mix_keys_released :
    ∃ s log, run stepLogged [(0, .tick 0 0), (0, .lockInit 5), (0, .acquire 0 0), (0, .release 0),
        (0, .lockInit 6)] (initState, []) = .ok (s, log) ∧
      ¬ ∀ a ∈ log, ∀ b ∈ log, a.1 = b.1 ↔ a.2 = b.2 := by
  obtain ⟨⟨s, log⟩, hrun, hlog⟩ := exists_of_returns
    (P := fun p : State × List (Int × Nat) => p.2 = [(5, 0), (6, 0)])
    (x := run stepLogged [(0, .tick 0 0), (0, .lockInit 5), (0, .acquire 0 0), (0, .release 0),
        (0, .lockInit 6)] (initState, [])) (by decide +kernel)
  cases hlog
  exact ⟨s, _, hrun, by decide⟩

end Sched
