import OslabRiscv.Sched.Likeness
import OslabRiscv.Sched.Consistency
import OslabRiscv.Sched.Cores

/-!
# Signals and broadcasts

A signal that finds the mutex free gives it to the waiter and forgets to make the
waiter ready; on an empty queue it takes the head for a PCB.  As long as every signal
finds a waiter and a locked mutex, it hands over exactly one waiter, and no task is
blocked outside the queues.
-/

namespace Sched

open IntrusiveList Outcome

/-! ## What the calls keep -/

section Keep

variable {n cpu k m : Nat} {s s' t : State} {q : Node → List Nat} {h g : Node} {i : Nat}
  {rest : List Nat}

/-- The first PCB of one queue is put, still blocked, at the end of another. -/
theorem Tidy.transfer (ht : Tidy n s q) (heq : q h = i :: rest) (hne : h ≠ .ready)
    (hg : IsHead s g) (hgr : g ≠ .ready) (hgh : g ≠ h) (hlive : ∀ j, g = .wait j → Live s j) :
    ∃ s' q', blockOn g i (delQueue i s) = .ok s' ∧ Tidy n s' q' ∧ Wakes [h, g] s q s' q' ∧
      q' h = rest ∧ q' g = q g ++ [i] ∧ (s'.pcb i).status = .blocked ∧
      s'.conditions = s.conditions := by
  have hi : i ∈ q h := by
    rw [heq]
    exact List.mem_cons_self
  have hbound := ht.bound h i hi
  have hl := ht.live_of_mem hi
  obtain ⟨_, hq₁, hfree⟩ := ht.linked.getHead heq
  obtain ⟨l, hadd, hq₂⟩ := hq₁.put hg hfree hbound hl .blocked ⟨by simp, by simp⟩
  have hkeep : Function.update q h rest g = q g := Function.update_of_ne hgh _ _
  rw [hkeep] at hq₂
  have hother : ∀ b j, j ≠ i → (j ∈ Function.update (Function.update q h rest) g
      (q g ++ [i]) b ↔ j ∈ q b) := by
    intro b j hji
    rw [← hkeep, mem_update_append hji]
    by_cases hb : b = h
    · rw [hb, Function.update_self, heq, List.mem_cons]
      exact ⟨Or.inr, fun hj => hj.resolve_left hji⟩
    · rw [Function.update_of_ne hb]
  have hself : ∀ b, i ∈ Function.update (Function.update q h rest) g (q g ++ [i]) b ↔
      b = g := by
    intro b
    rw [← hkeep]
    exact mem_update_append_self hfree
  have hst : ((setStatus i .blocked (delQueue i s)).pcb i).status = .blocked :=
    setStatus_pcb_self i .blocked
  refine ⟨_, Function.update (Function.update q h rest) g (q g ++ [i]), hadd, ?_,
    ⟨quiet_setStatus hl ⟨by simp, by simp⟩ ?_, rfl, ?_⟩, ?_, ?_, hst, rfl⟩
  · refine ht.move hq₂.toQueues hbound (fun j hj => ?_) hother rfl ?_ ?_
    · exact congrArg Pcb.status (setStatus_pcb_of_ne hj .blocked)
    · exact fun j _ hmem => hlive j ((hself _).mp hmem).symm
    · unfold Placed
      simp only [hst]
      exact ⟨g, hgr, hself⟩
  · intro b hb
    rw [List.mem_cons, List.mem_singleton, not_or] at hb
    rw [Function.update_of_ne hb.2, Function.update_of_ne hb.1]
  · intro j
    by_cases hj : j = i
    · rw [hj]
      change ((setStatus i .blocked (delQueue i s)).pcb i).status = _ ↔ _
      have hbl := ht.status_of_mem hi
      rw [if_neg hne] at hbl
      rw [hst, hbl]
    · change ((setStatus i .blocked (delQueue i s)).pcb j).status = _ ↔ _
      rw [setStatus_pcb_of_ne hj]
      exact Iff.rfl
  · rw [Function.update_of_ne hgh.symm, Function.update_self]
  · rw [Function.update_self]

/-- Rescheduling after PCBs in queues were moved. -/
theorem Wakes.schedule {E : List Node} {q' : Node → List Nat} (hs : Settled n s q) (hp : Pids s)
    (hcpu : cpu < n) (ht : Tidy n s' q') {ml : Nat → MutexLock}
    (hw : Wakes E s q { s' with mlocks := ml } q') (now : Nat) :
    ∃ s'' q'', doScheduler cpu now s' = .ok s'' ∧ Settled n s'' q'' ∧ Pids s'' ∧
      Quiet [.ready, .sleep] s' q' s'' q'' := by
  have hb : Busy (· < n) s' := hs.busy.congr (fun j hj => (hw.running j).mpr hj) hw.core
  have hp' : Pids { s' with mlocks := ml } := hw.toQuiet.pids hp
  have hp'' : Pids s' := ⟨hp'.fresh, hp'.live, hp'.available⟩
  obtain ⟨s'', q'', hrun, hs'', hq''⟩ := (Settled.mk ht hb).schedule hp'' hcpu now
  exact ⟨s'', q'', hrun, hs'', hq''.pids hp'', hq''⟩

/-- `do_condition_wait` leaves a settled state. -/
theorem doConditionWait_settled (hs : Settled n s q) (hp : Pids s) (hcpu : cpu < n) {now : Nat}
    (hok : doConditionWait cpu k m now s = .ok s') : ∃ q', Settled n s' q' ∧ Pids s' := by
  unfold doConditionWait at hok
  cases hcur : s.coreRunning cpu with
  | idle =>
      unfold current at hok
      rw [hcur] at hok
      cases hok
  | task i =>
      rw [current_eq hcur] at hok
      by_cases hk : conditionNum ≤ k
      · simp only [bind, Except.bind, if_pos hk] at hok
        cases hok
      · obtain ⟨l, hadd, ht₁, hb₁, hw₁⟩ := hs.block (h := .cond k)
          (t := setCondition k { (setStatus i .blocked s).conditions k with lockIdx := m }
            (setStatus i .blocked s)) hcpu hcur rfl
          (fun j hj => setStatus_pcb_of_ne hj _) (setStatus_pid i i _) (setStatus_pcb_self i _)
          rfl rfl rfl (Nat.lt_of_not_le hk) (by simp) (fun j hj => by cases hj)
        simp only [bind, Except.bind, if_neg hk, hadd] at hok
        by_cases hm : m < lockNum
        · obtain ⟨s₂, q₂, hrel, ht₂, hw₂, _, _⟩ := doMutexLockRelease_spec ht₁ hm
          rw [hrel] at hok
          have hblocked : ∀ j, s₂.coreRunning cpu = .task j → (s₂.pcb j).status = .running →
              (s₂.pcb j).pid ≠ 0 := by
            intro j hj hst
            have hcore : s₂.coreRunning = s.coreRunning := hw₂.core
            rw [hcore, hcur] at hj
            cases hj
            have hst' := (hw₂.running i).mp hst
            change ((setStatus i .blocked s).pcb i).status = _ at hst'
            rw [setStatus_pcb_self] at hst'
            cases hst'
          have hb₂ : Busy (fun c => c < n ∧ c ≠ cpu) s₂ :=
            hb₁.congr (fun j hj => (hw₂.running j).mpr hj) hw₂.core
          obtain ⟨s₃, q₃, hsched, hs₃, hq₃⟩ := doScheduler_spec ht₂ hcpu hb₂ hblocked now
          have hok' : doScheduler cpu now s₂ = .ok s' := hok
          rw [hsched] at hok'
          cases hok'
          have hp₁ := hw₁.pids hp
          have hp₂ : Pids { s₂ with mlocks := s.mlocks } :=
            hw₂.toQuiet.pids ⟨hp₁.fresh, hp₁.live, hp₁.available⟩
          exact ⟨q₃, hs₃, hq₃.pids ⟨hp₂.fresh, hp₂.live, hp₂.available⟩⟩
        · unfold doMutexLockRelease at hok
          rw [if_pos (Nat.le_of_not_lt hm)] at hok
          cases hok

/-- A signal that finds a waiter and a locked mutex. -/
theorem doConditionSignal_held (hs : Settled n s q) (hp : Pids s) (hcpu : cpu < n)
    (hk : k < conditionNum) (heq : q (.cond k) = i :: rest)
    (hmut : mutexOf (s.conditions k) = some m) (hl : (s.mlocks m).locked = true) (now : Nat) :
    ∃ s' q', doConditionSignal cpu k now s = .ok s' ∧ Settled n s' q' ∧ Pids s' ∧
      q' (.cond k) = rest ∧ q' (.lock m) = q (.lock m) ++ [i] ∧
      (∀ b, b ≠ .ready → b ≠ .sleep → b ≠ .cond k → b ≠ .lock m → q' b = q b) ∧
      s'.mlocks = s.mlocks ∧
      ∀ j, (s'.pcb j).status = .available ↔ (s.pcb j).status = .available := by
  obtain ⟨s₁, q₁, hblock, ht₁, hw₁, hrest, hlock, _, _⟩ := hs.toTidy.transfer (g := .lock m) heq
    (by simp) (mutexOf_lt hmut) (by simp) (by simp) (fun j hj => by cases hj)
  obtain ⟨s', q', hsched, hs', hp', hq'⟩ := Wakes.schedule hs hp hcpu ht₁ hw₁ now
  refine ⟨s', q', ?_, hs', hp', ?_, ?_, ?_, hq'.mlocks.trans hw₁.mlocks,
    fun j => (hq'.available j).trans (hw₁.available j)⟩
  · unfold doConditionSignal
    simp only [if_neg (Nat.not_le_of_lt hk), (hs.queues.getHead heq).1, bind, Except.bind]
    have hmut' : mutexOf ((delQueue i s).conditions k) = some m := hmut
    have hl' : ((delQueue i s).mlocks m).locked = true := hl
    simp only [hmut', hl']
    change blockOn (.lock m) i (delQueue i s) >>= doScheduler cpu now = _
    rw [hblock]
    exact hsched
  · rw [hq'.queues _ (by simp), hrest]
  · rw [hq'.queues _ (by simp), hlock]
  · intro b hr hsl hc hlk
    rw [hq'.queues b (by simp [hr, hsl]), hw₁.queues b (by simp [hc, hlk])]

/-- A blocked task that is marked ready differs in its status only. -/
theorem alike_ready (hst : (s.pcb i).status = .blocked) : Alike s (setStatus i .ready s) := by
  refine ⟨rfl, fun j => ?_⟩
  by_cases hj : j = i
  · subst hj
    exact Or.inr ⟨hst, Function.update_self _ _ _⟩
  · exact Or.inl (setStatus_pcb_of_ne hj .ready)

theorem Alike.trans {u : State} (h₁ : Alike s t) (h₂ : Alike t u) : Alike s u := by
  refine ⟨by rw [h₂.rest, h₁.rest], fun j => ?_⟩
  rcases h₁.pcb j with h | ⟨hst, h⟩
  · rw [← h]
    exact h₂.pcb j
  · rcases h₂.pcb j with h' | ⟨hst', _⟩
    · exact Or.inr ⟨hst, h'.trans h⟩
    · rw [h] at hst'
      cases hst'

/-- A broadcast does the same in two states that are alike, by induction on its rounds. -/
theorem broadcastLoop_alike (k fuel : Nat) : ∀ {s t : State}, Alike s t →
    Matching Alike (broadcastLoop k fuel s) (broadcastLoop k fuel t) := by
  induction fuel with
  | zero =>
      intro s t _
      rfl
  | succ fuel ih =>
      intro s t ha
      unfold broadcastLoop
      rw [ha.links]
      split
      · exact ha
      · refine (getHead_alike ha _).bind ?_
        rintro ⟨i, s₁⟩ ⟨j, t₁⟩ ⟨rfl, (h₁ : Alike s₁ t₁)⟩
        simp only [h₁.conditions, h₁.mlocks]
        split
        · rfl
        · split
          · refine (addQueue_alike ?_ .ready j).bind fun _ _ h₂ => ih h₂
            unfold takeFor
            rw [h₁.pid, h₁.mlocks]
            exact h₁.setLock _ _
          · exact (blockOn_alike h₁ _ j).bind fun _ _ h₂ => ih h₂

/-- The broadcast loop ends in a state that is settled once the waiter that got the mutex
is marked ready. -/
theorem broadcastLoop_settled (hk : k < conditionNum) :
    ∀ (fuel : Nat) (s : State) (q : Node → List Nat), Settled n s q → Pids s →
      ∀ s', broadcastLoop k fuel s = .ok s' →
        ∃ t q', Alike s' t ∧ Settled n t q' ∧ Pids t := by
  intro fuel
  induction fuel with
  | zero =>
      intro s q _ _ s' hrun
      cases hrun
  | succ fuel ih =>
      intro s q hs hp s' hrun
      have hh : IsHead s (.cond k) := hk
      unfold broadcastLoop at hrun
      by_cases hempty : listIsEmpty (.cond k) s.links
      · rw [if_pos hempty] at hrun
        cases hrun
        exact ⟨s, q, .refl s, hs, hp⟩
      · rw [if_neg hempty] at hrun
        obtain ⟨i, rest, heq⟩ := List.exists_cons_of_ne_nil
          fun hnil => hempty ((hs.queues.listIsEmpty hh).mpr hnil)
        have hi : i ∈ q (.cond k) := by
          rw [heq]
          exact List.mem_cons_self
        have hbl := hs.toTidy.status_of_mem hi
        rw [if_neg (by simp)] at hbl
        simp only [(hs.queues.getHead heq).1, bind, Except.bind] at hrun
        cases hmut : mutexOf (s.conditions k) with
        | none =>
            have hmut' : mutexOf ((delQueue i s).conditions k) = none := hmut
            rw [hmut'] at hrun
            cases hrun
        | some m =>
            have hmut' : mutexOf ((delQueue i s).conditions k) = some m := hmut
            simp only [hmut'] at hrun
            by_cases hfree : (s.mlocks m).locked = false
            · have hfree' : ((delQueue i s).mlocks m).locked = false := hfree
              rw [if_pos hfree'] at hrun
              -- the waiter is put into the ready queue as it is
              have hs₀ : Settled n (takeFor m i s) q :=
                ⟨hs.toTidy.congr rfl (fun _ => rfl) rfl, hs.busy⟩
              have hp₀ : Pids (takeFor m i s) := ⟨hp.fresh, hp.live, hp.available⟩
              obtain ⟨l, hadd, ht₁⟩ := hs₀.toTidy.wake hi (by simp)
              have hw₁ := hs₀.toTidy.wake_wakes hi (by simp) l
              have halike : Alike (takeFor m i (delQueue i s))
                  (setStatus i .ready (takeFor m i (delQueue i s))) := alike_ready hbl
              have hgo := (addQueue_alike halike .ready i).bind
                fun _ _ h => broadcastLoop_alike k fuel h
              obtain ⟨t', ht', hat'⟩ := hgo.exists_ok hrun
              have hadd' : addQueue .ready i (setStatus i .ready (takeFor m i (delQueue i s))) =
                  .ok { setStatus i .ready (takeFor m i s) with links := l } := hadd
              rw [hadd'] at ht'
              obtain ⟨t, q', hat, ht⟩ := ih _ _
                ⟨ht₁, hs₀.busy.congr (fun j hj => (hw₁.running j).mpr hj) hw₁.core⟩
                (hw₁.toQuiet.pids hp₀) t' ht'
              exact ⟨t, q', hat'.trans hat, ht⟩
            · have hfree' : ¬((delQueue i s).mlocks m).locked = false := hfree
              rw [if_neg hfree'] at hrun
              obtain ⟨s₁, q₁, hblock, ht₁, hw₁, _⟩ := hs.toTidy.transfer (g := .lock m) heq
                (by simp) (mutexOf_lt hmut) (by simp) (by simp) (fun j hj => by cases hj)
              rw [hblock] at hrun
              exact ih s₁ q₁
                ⟨ht₁, hs.busy.congr (fun j hj => (hw₁.running j).mpr hj) hw₁.core⟩
                (hw₁.toQuiet.pids hp) s' hrun

/-- A state that is settled but for tasks blocked in the ready queue. -/
def Loose (n : Nat) (s : State) : Prop := ∃ t q, Settled n t q ∧ Pids t ∧ Alike s t

/-- The queues of a loose state hold PCBs in use. -/
theorem Loose.linked (hs : Loose n s) : ∃ q, Linked s q := by
  obtain ⟨t, q, ht, _, ha⟩ := hs
  have hlive : ∀ j, Live t j ↔ Live s j := by
    intro j
    unfold Live
    rw [ne_eq, ne_eq, ha.exited, ha.available]
  refine ⟨q, ht.queues.congr ha.links.symm fun j _ => (ha.available j).symm, ht.bound, ?_⟩
  exact fun h j hj => (hlive j).mp (ht.toTidy.live_of_mem hj)

end Keep

/-! ## Runs -/

/-- A kernel entry, the calls on condition variables included. -/
inductive CondCall
  | call (c : Call)
  | init (key : Int)
  | wait (k mutex now : Nat)
  | signal (k now : Nat)
  | broadcast (k now : Nat)
  | destroy (k : Nat)
  deriving DecidableEq, Repr

def handleCond (cpu : Nat) : CondCall → State → Except Stop State
  | .call c, s => step cpu c s
  | .init key, s => .ok (doConditionInit key s).2
  | .wait k mutex now, s => doConditionWait cpu k mutex now s
  | .signal k now, s => doConditionSignal cpu k now s
  | .broadcast k now, s => doConditionBroadcast cpu k now s
  | .destroy k, s => doConditionDestroy k s

/-- A kernel entry on the core named. -/
def stepCond (p : Nat × CondCall) (s : State) : Except Stop State := handleCond p.1 p.2 s

/-- The mutex of the condition is locked. -/
def MutexHeld (k : Nat) (s : State) : Prop :=
  ∃ m, mutexOf (s.conditions k) = some m ∧ (s.mlocks m).locked = true

/-- A signal finds a waiter and a locked mutex. -/
def Finds (k : Nat) (s : State) : Prop := queued (.cond k) s ≠ [] ∧ MutexHeld k s

/-- Every signal finds a waiter and a locked mutex, and no task is killed while the other
core runs it. -/
def Finding (s : State) (p : Nat × CondCall) : Prop :=
  p.1 < 2 ∧
    match p.2 with
    | .call c => KillsOwn 2 p.1 s c
    | .signal k _ => k < conditionNum → Finds k s
    | _ => True

/-- What a kill may hit is the same in states that are alike. -/
theorem KillsOwn.alike {n cpu : Nat} {s t : State} {c : Call} (hk : KillsOwn n cpu s c)
    (ha : Alike s t) : KillsOwn n cpu t c := by
  cases c with
  | kill pid now =>
      intro i hi d hd hcore
      rw [findPid_alike ha] at hi
      rw [ha.core] at hcore
      exact hk i hi d hd hcore
  | _ => trivial

section Run

variable {n cpu k : Nat} {s s' t : State} {q : Node → List Nat}

/-- States that are alike have the same queues. -/
theorem Alike.queued (ha : Alike s t) (h : Node) : queued h s = queued h t := by
  unfold Sched.queued
  rw [ha.links]

/-- What goes alike from a settled state ends loosely, if the settled one ends so. -/
theorem Loose.of_alike {x y : Except Stop State} (hxy : Matching Alike x y) (hx : x = .ok s')
    (hy : ∀ t', y = .ok t' → Loose n t') : Loose n s' := by
  obtain ⟨t', ht', ha⟩ := hxy.exists_ok hx
  obtain ⟨u, q, hu, hpu, ha'⟩ := hy t' ht'
  exact ⟨u, q, hu, hpu, ha.trans ha'⟩

/-- A broadcast leaves a loose state. -/
theorem doConditionBroadcast_loose (hs : Settled n t q) (hp : Pids t) (hcpu : cpu < n)
    (now : Nat) (hok : doConditionBroadcast cpu k now t = .ok s') : Loose n s' := by
  unfold doConditionBroadcast at hok
  by_cases hk : conditionNum ≤ k
  · rw [if_pos hk] at hok
    cases hok
  rw [if_neg hk] at hok
  cases hloop : broadcastLoop k rounds t with
  | error e =>
      rw [hloop] at hok
      cases hok
  | ok s₁ =>
      rw [hloop] at hok
      obtain ⟨t₁, q₁, ha₁, hs₁, hp₁⟩ :=
        broadcastLoop_settled (Nat.lt_of_not_le hk) rounds t q hs hp s₁ hloop
      obtain ⟨t', q', hsched, hs', hq'⟩ := hs₁.schedule hp₁ hcpu now
      have hok' : doScheduler cpu now s₁ = .ok s' := hok
      refine Loose.of_alike (doScheduler_alike ha₁ cpu now) hok' fun u hu => ?_
      rw [hsched] at hu
      cases hu
      exact ⟨t', q', hs', hq'.pids hp₁, .refl t'⟩

/-- So does the end of a condition. -/
theorem doConditionDestroy_loose (hs : Settled n t q) (hp : Pids t)
    (hok : doConditionDestroy k t = .ok s') : Loose n s' := by
  unfold doConditionDestroy at hok
  by_cases hk : conditionNum ≤ k
  · rw [if_pos hk] at hok
    cases hok
  rw [if_neg hk] at hok
  by_cases hempty : listIsEmpty (.cond k) t.links
  · have hh : IsHead t (.cond k) := Nat.lt_of_not_le hk
    rw [if_pos hempty,
      hs.queues.initListHead_same hh ((hs.queues.listIsEmpty hh).mp hempty)] at hok
    cases hok
    obtain ⟨hs', hp'⟩ := hs.tables hp rfl rfl rfl rfl
      (t := setCondition k ⟨-1, -1, false⟩ { t with links := t.links })
    exact ⟨_, q, hs', hp', .refl _⟩
  · rw [if_neg hempty] at hok
    cases hok
    exact ⟨_, q, hs, hp, .refl _⟩

/-- The calls on condition variables go alike from states that are alike. -/
theorem handleCond_alike (ha : Alike s t) (cpu : Nat) (c : CondCall) :
    Matching Alike (handleCond cpu c s) (handleCond cpu c t) := by
  cases c with
  | call c => exact step_alike ha cpu c
  | init key =>
      change Alike (doConditionInit key s).2 (doConditionInit key t).2
      unfold doConditionInit
      rw [ha.conditions]
      split
      · exact ha
      · exact ha.setCondition _ _
  | wait k mutex now =>
      refine bind_current ha cpu fun i => ?_
      split
      · rfl
      · have h₁ : Alike
            (setCondition k { s.conditions k with lockIdx := mutex } (setStatus i .blocked s))
            (setCondition k { t.conditions k with lockIdx := mutex } (setStatus i .blocked t)) := by
          rw [ha.conditions]
          exact (ha.setStatus i .blocked).setCondition _ _
        refine (addQueue_alike h₁ (.cond k) i).bind fun _ _ h₂ => ?_
        exact (doMutexLockRelease_alike h₂ mutex).bind
          fun _ _ h₃ => doScheduler_alike h₃ cpu now
  | signal k now =>
      change Matching Alike (doConditionSignal cpu k now s) (doConditionSignal cpu k now t)
      unfold doConditionSignal
      split
      · rfl
      · refine (getHead_alike ha _).bind ?_
        rintro ⟨i, s₁⟩ ⟨j, t₁⟩ ⟨rfl, (h₁ : Alike s₁ t₁)⟩
        simp only [h₁.conditions, h₁.mlocks]
        split
        · rfl
        · split
          · unfold takeFor
            rw [h₁.pid, h₁.mlocks]
            exact h₁.setLock _ _
          · exact doBlock_alike h₁ cpu j _ now
  | broadcast k now =>
      change Matching Alike (doConditionBroadcast cpu k now s) (doConditionBroadcast cpu k now t)
      unfold doConditionBroadcast
      split
      · rfl
      · exact (broadcastLoop_alike k rounds ha).bind fun _ _ h₁ => doScheduler_alike h₁ cpu now
  | destroy k =>
      change Matching Alike (doConditionDestroy k s) (doConditionDestroy k t)
      unfold doConditionDestroy
      rw [ha.links]
      split
      · rfl
      · split
        · exact (ha.setLinks _).setCondition _ _
        · exact ha

/-- **One entry.** -/
theorem stepCond_loose (s : State) (p : Nat × CondCall) (s' : State) (hs : Loose 2 s)
    (hf : Finding s p) (hok : stepCond p s = .ok s') : Loose 2 s' := by
  obtain ⟨t, q, ht, hp, ha⟩ := hs
  obtain ⟨cpu, c⟩ := p
  obtain ⟨hcpu, hf⟩ := hf
  refine Loose.of_alike (handleCond_alike ha cpu c) hok fun t' ht' => ?_
  cases c with
  | call c =>
      obtain ⟨u, r, hu, hset, hpids⟩ :=
        step_settled ht hp hcpu (legal_of_ok ht.toTidy ht') (KillsOwn.alike hf ha)
      have ht'' : step cpu c t = .ok t' := ht'
      rw [ht''] at hu
      cases hu
      exact ⟨t', r, hset, hpids, .refl t'⟩
  | init key =>
      cases ht'
      unfold doConditionInit
      split
      · exact ⟨t, q, ht, hp, .refl t⟩
      · obtain ⟨hset, hpids⟩ := ht.tables hp rfl rfl rfl rfl (t := setCondition _ _ t)
        exact ⟨_, q, hset, hpids, .refl _⟩
  | wait k mutex now =>
      obtain ⟨r, hset, hpids⟩ := doConditionWait_settled ht hp hcpu ht'
      exact ⟨t', r, hset, hpids, .refl t'⟩
  | signal k now =>
      have hsig : doConditionSignal cpu k now t = .ok t' := ht'
      by_cases hk : k < conditionNum
      · obtain ⟨hne, m, hmut, hl⟩ := hf hk
        rw [ha.queued, ht.toTidy.queued_eq (h := .cond k) hk] at hne
        obtain ⟨i, rest, heq⟩ := List.exists_cons_of_ne_nil hne
        obtain ⟨u, r, hu, hset, hpids, _⟩ := doConditionSignal_held ht hp hcpu hk heq
          (by rw [ha.conditions]; exact hmut) (by rw [ha.mlocks]; exact hl) now
        rw [hu] at hsig
        cases hsig
        exact ⟨_, r, hset, hpids, .refl _⟩
      · unfold doConditionSignal at hsig
        rw [if_pos (Nat.le_of_not_lt hk)] at hsig
        cases hsig
  | broadcast k now => exact doConditionBroadcast_loose ht hp hcpu now ht'
  | destroy k => exact doConditionDestroy_loose ht hp ht'

/-! ## Signals -/

/-- What a signal is for: with no waiter it does nothing, and otherwise the first waiter
gets the mutex and is ready, or queues up for it and is blocked; all others wait on. -/
def HandsOver (cpu k now : Nat) (s : State) : Prop :=
  match queued (.cond k) s with
  | [] => doConditionSignal cpu k now s = .ok s
  | i :: rest =>
    ∃ s' m, doConditionSignal cpu k now s = .ok s' ∧ mutexOf (s.conditions k) = some m ∧
      queued (.cond k) s' = rest ∧
      (∀ h, IsHead s h → h ≠ .ready → h ≠ .sleep → h ≠ .cond k → h ≠ .lock m →
        queued h s' = queued h s) ∧
      if (s.mlocks m).locked then
        (s'.pcb i).status = .blocked ∧ queued (.lock m) s' = queued (.lock m) s ++ [i] ∧
          s'.mlocks = s.mlocks
      else
        (s'.pcb i).status = .ready ∧ queued .ready s' = queued .ready s ++ [i] ∧
          queued (.lock m) s' = queued (.lock m) s ∧
          s'.mlocks = Function.update s.mlocks m
            { s.mlocks m with locked := true, owner := (s.pcb i).pid }

/-- No task is blocked outside the queues. -/
def NoneLost (s : State) : Prop :=
  ∀ i, i < numMaxTask → (s.pcb i).status = .blocked → ∃ h, IsHead s h ∧ i ∈ queued h s

/-- In a loose state no task is lost. -/
theorem Loose.noneLost (hs : Loose n s) : NoneLost s := by
  obtain ⟨t, q, ht, _, ha⟩ := hs
  intro i hi hst
  have hplaced := ht.placed i hi
  have hmem : ∃ h, i ∈ q h := by
    unfold Placed at hplaced
    rcases ha.pcb i with h | ⟨_, h⟩
    · rw [h, hst] at hplaced
      obtain ⟨h, _, hall⟩ := hplaced
      exact ⟨h, (hall h).mpr rfl⟩
    · rw [h] at hplaced
      exact ⟨.ready, (hplaced .ready).mpr rfl⟩
  obtain ⟨h, hmem⟩ := hmem
  have hh := ht.queues.isHead hmem
  refine ⟨h, ?_, ?_⟩
  · cases h with
    | wait j => exact ⟨hh.1, fun hav => hh.2 ((ha.available j).mpr hav)⟩
    | _ => exact hh
  · rw [ha.queued, ht.toTidy.queued_eq hh]
    exact hmem

/-- Signalling a waiter while the mutex is free leaves it blocked. -/
theorem doConditionSignal_free {i m : Nat} {rest : List Nat} (hq : Linked s q)
    (hk : k < conditionNum) (heq : q (.cond k) = i :: rest)
    (hmut : mutexOf (s.conditions k) = some m) (hl : (s.mlocks m).locked = false) (now : Nat) :
    doConditionSignal cpu k now s = .ok (takeFor m i (delQueue i s)) := by
  unfold doConditionSignal
  simp only [if_neg (Nat.not_le_of_lt hk), (hq.toQueues.getHead heq).1, bind, Except.bind]
  have hmut' : mutexOf ((delQueue i s).conditions k) = some m := hmut
  have hl' : ((delQueue i s).mlocks m).locked = false := hl
  simp only [hmut', hl', if_true]

/-- The list read off a queue is the one the ring holds. -/
theorem Linked.queued_eq (hq : Linked s q) {h : Node} (hh : IsHead s h) : queued h s = q h :=
  hq.toQueues.queued_eq hh hq.length_lt

/-- Whether a signal does what it is for. -/
theorem Loose.handsOver_iff (hs : Loose n s) (hcpu : cpu < n) (hk : k < conditionNum)
    (now : Nat) : HandsOver cpu k now s ↔ Finds k s := by
  obtain ⟨q, hq⟩ := hs.linked
  obtain ⟨t, q', ht, hp, ha⟩ := hs
  have hcond : IsHead s (.cond k) := hk
  have hread : queued (.cond k) s = q (.cond k) := hq.queued_eq hcond
  have hheads : ∀ h, IsHead s h ↔ IsHead t h := by
    intro h
    cases h with
    | wait j => exact and_congr Iff.rfl (not_congr (ha.available j)).symm
    | _ => exact Iff.rfl
  unfold HandsOver Finds
  rw [hread]
  cases heq : q (.cond k) with
  | nil =>
      refine ⟨fun hsig => ?_, fun h => absurd rfl h.1⟩
      -- the head of the queue is taken for a PCB
      have hnext := hq.next_head hcond
      rw [heq] at hnext
      unfold doConditionSignal getHead at hsig
      rw [if_neg (Nat.not_le_of_lt hk), hnext] at hsig
      cases hsig
  | cons i rest =>
      have hi : i ∈ q (.cond k) := by
        rw [heq]
        exact List.mem_cons_self
      constructor
      · rintro ⟨s', m, hsig, hmut, _, _, hright⟩
        refine ⟨List.cons_ne_nil _ _, m, hmut, ?_⟩
        by_contra hl
        rw [if_neg hl] at hright
        rw [doConditionSignal_free hq hk heq hmut (Bool.eq_false_iff.mpr hl) now] at hsig
        cases hsig
        -- the waiter was blocked, and nobody changed that
        have hst : (s.pcb i).status = .ready := hright.1
        have hit : i ∈ q' (.cond k) := by
          rw [← ht.toTidy.queued_eq (h := .cond k) hk, ← ha.queued, hread]
          exact hi
        have hbl := ht.toTidy.status_of_mem hit
        rw [if_neg (by simp)] at hbl
        rcases ha.pcb i with h | ⟨hst', _⟩
        · rw [← h, hbl] at hst
          cases hst
        · rw [hst'] at hst
          cases hst
      · rintro ⟨_, m, hmut, hl⟩
        have hsame : ∀ h, IsHead s h → queued h s = q' h := by
          intro h hh
          rw [ha.queued, ht.toTidy.queued_eq ((hheads h).mp hh)]
        have heq' : q' (.cond k) = i :: rest := by
          rw [← hsame _ hcond, hread, heq]
        obtain ⟨t', r, hsig, hset, _, hrest, hlock, hother, hm, hav⟩ := doConditionSignal_held ht hp
          hcpu hk heq' (by rw [ha.conditions]; exact hmut) (by rw [ha.mlocks]; exact hl) now
        obtain ⟨s', hsig', ha'⟩ := (handleCond_alike ha cpu (.signal k now)).exists_ok' hsig
        have hlm : m < lockNum := mutexOf_lt hmut
        have hafter : ∀ h, IsHead t' h → queued h s' = r h := by
          intro h hh
          rw [ha'.queued, hset.toTidy.queued_eq hh]
        refine ⟨s', m, hsig', hmut, ?_, ?_, ?_⟩
        · rw [hafter (.cond k) hk, hrest]
        · intro h hh hr hsl hc hlk
          have hh' : IsHead t' h := by
            have ht' := (hheads h).mp hh
            cases h with
            | wait j => exact ⟨ht'.1, fun hav' => ht'.2 ((hav j).mp hav')⟩
            | _ => exact ht'
          rw [hafter h hh', hother h hr hsl hc hlk, hsame h hh]
        · rw [if_pos hl]
          refine ⟨?_, ?_, ?_⟩
          · have hmem : i ∈ r (.lock m) := by
              rw [hlock]
              exact List.mem_append_right _ (List.mem_singleton.mpr rfl)
            have hbl := hset.toTidy.status_of_mem hmem
            rw [if_neg (by simp)] at hbl
            rcases ha'.pcb i with h | ⟨hst, _⟩
            · rw [← h]
              exact hbl
            · exact hst
          · have hls : queued (.lock m) s = q' (.lock m) := hsame (.lock m) hlm
            rw [hafter (.lock m) hlm, hlock, hls]
          · rw [← ha'.mlocks, hm, ha.mlocks]

end Run

/-- The first state is loose. -/
theorem Loose.start (n : Nat) : Loose n initState :=
  ⟨initState, initQueues, initState_settled n, initState_pids, .refl _⟩

/-- **Signalling.**  In every state that a run of both cores leads to whose signals find a
waiter and a locked mutex, no task is blocked outside the queues, and the next signal
hands over exactly one waiter if and only if it finds a waiter and a locked mutex. -/
theorem signals_handOver {cs : List (Nat × CondCall)} {s : State}
    (hcs : AllSteps stepCond Finding cs initState) (hrun : run stepCond cs initState = .ok s) :
    NoneLost s ∧ ∀ cpu k now, cpu < 2 → k < conditionNum →
      (HandsOver cpu k now s ↔ Finds k s) := by
  have hs := run_invariant stepCond_loose cs _ _ (.start 2) hcs hrun
  exact ⟨hs.noneLost, fun cpu k now hcpu hk => hs.handsOver_iff hcpu hk now⟩

instance (k : Nat) (s : State) : Decidable (MutexHeld k s) :=
  match h : mutexOf (s.conditions k) with
  | none => isFalse fun ⟨m, hm, _⟩ => by
      rw [h] at hm
      cases hm
  | some m => decidable_of_iff ((s.mlocks m).locked = true)
      ⟨fun hl => ⟨m, h, hl⟩, fun ⟨m', hm', hl⟩ => by
        rw [h] at hm'
        cases hm'
        exact hl⟩

instance (k : Nat) (s : State) : Decidable (Finds k s) := inferInstanceAs (Decidable (_ ∧ _))

instance Finding.decidable (s : State) : ∀ p, Decidable (Finding s p)
  | (cpu, .call c) => (inferInstance : Decidable (cpu < 2 ∧ KillsOwn 2 cpu s c))
  | (cpu, .signal k _) => (inferInstance : Decidable (cpu < 2 ∧ (k < conditionNum → Finds k s)))
  | (cpu, .init _) | (cpu, .wait _ _ _) | (cpu, .broadcast _ _) | (cpu, .destroy _) =>
    (inferInstance : Decidable (cpu < 2 ∧ True))

/-- The shell waits at a condition; a task it started takes the mutex and signals. -/
def signalled : List (Nat × CondCall) :=
  [(0, .call (.tick 0 0)), (0, .init 5), (0, .call (.lockInit 7)), (0, .call .exec),
    (0, .call (.acquire 0 0)), (0, .wait 0 0 0), (0, .call (.acquire 0 0))]

/-- A signal for the shell, by a task that holds the mutex. -/
theorem signals_handOver_sample : ∃ s, run stepCond signalled initState = .ok s ∧
    Finds 0 s ∧ HandsOver 0 0 0 s := by
  obtain ⟨s, hrun, hf⟩ := exists_of_returns (P := Finds 0)
    (x := run stepCond signalled initState) (by decide +kernel)
  exact ⟨s, hrun, hf, ((signals_handOver (by decide +kernel) hrun).2 0 0 0
    (by decide) (by decide)).mpr hf⟩

/-- A mutex that nobody holds is enough for the waiter not to become ready. -/
theorem signal_free_loses : ∃ s, run stepCond [(0, .call (.tick 0 0)), (0, .init 5),
      (0, .call (.lockInit 7)), (0, .call .exec), (0, .wait 0 0 0)] initState = .ok s ∧
    queued (.cond 0) s = [0] ∧ ¬ HandsOver 0 0 0 s := by
  obtain ⟨s, hrun, hwait, hfree⟩ := exists_of_returns
    (P := fun s => queued (.cond 0) s = [0] ∧ ¬ Finds 0 s)
    (x := run stepCond [(0, .call (.tick 0 0)), (0, .init 5), (0, .call (.lockInit 7)),
      (0, .call .exec), (0, .wait 0 0 0)] initState) (by decide +kernel)
  have hs := run_invariant stepCond_loose _ _ _ (.start 2) (by decide +kernel) hrun
  exact ⟨s, hrun, hwait, fun h => hfree ((hs.handsOver_iff (by decide) (by decide) 0).mp h)⟩

/-! ## Broadcasts -/

/-- **Broadcasting.**  Whatever the queues hold, a broadcast empties the queue of the
condition, hands a free mutex to the first waiter and queues up the others at the mutex
in their order, and the releases that follow serve all of them in this order. -/
theorem broadcast_keepsOrder {cpu k m : Nat} {s : State} {q : Node → List Nat}
    (hq : Linked s q) (hk : k < conditionNum) (hm : m < lockNum)
    (hlock : q (.cond k) ≠ [] → (s.conditions k).lockIdx = m) (now : Nat) :
    ∃ s' q', doConditionBroadcast cpu k now s = doScheduler cpu now s' ∧
      Broadcast k m s q s' q' ∧ HandedOn m s' q' := by
  have hmut : q (.cond k) ≠ [] → mutexOf (s.conditions k) = some m := by
    intro hne
    unfold mutexOf
    rw [hlock hne, if_pos ⟨by omega, by omega⟩, Int.toNat_natCast]
  obtain ⟨s', q', hrun, hb⟩ := broadcastLoop_spec hq hk hmut
  refine ⟨s', q', ?_, hb, hb.linked.handedOn hm⟩
  unfold doConditionBroadcast
  rw [if_neg (by omega), hrun]
  rfl

/-- The shell and a task it started wait at the same condition, and another task
broadcasts. -/
theorem broadcast_keepsOrder_two : ∃ s q s' q',
    run stepCond [(0, .call (.tick 0 0)), (0, .init 5), (0, .call (.lockInit 7)),
      (0, .call .exec), (0, .call .exec), (0, .wait 0 0 0), (0, .wait 0 0 0)] initState = .ok s ∧
    q (.cond 0) = [0, 1] ∧ doConditionBroadcast 0 0 0 s = doScheduler 0 0 s' ∧
    Broadcast 0 0 s q s' q' ∧ HandedOn 0 s' q' := by
  obtain ⟨s, hrun, hwait, hlock⟩ := exists_of_returns
    (P := fun s => queued (.cond 0) s = [0, 1] ∧ (s.conditions 0).lockIdx = 0)
    (x := run stepCond [(0, .call (.tick 0 0)), (0, .init 5), (0, .call (.lockInit 7)),
      (0, .call .exec), (0, .call .exec), (0, .wait 0 0 0), (0, .wait 0 0 0)] initState)
    (by decide +kernel)
  obtain ⟨q, hq⟩ :=
    (run_invariant stepCond_loose _ _ _ (.start 2) (by decide +kernel) hrun).linked
  rw [hq.queued_eq (h := .cond 0) (show 0 < conditionNum by decide)] at hwait
  have hall : ∃ s' q', doConditionBroadcast 0 0 0 s = doScheduler 0 0 s' ∧
      Broadcast 0 0 s q s' q' ∧ HandedOn 0 s' q' :=
    broadcast_keepsOrder hq (by decide) (by decide) (fun _ => hlock) 0
  obtain ⟨s', q', hb⟩ := hall
  exact ⟨s, q, s', q', hrun, hwait, hb⟩

end Sched
