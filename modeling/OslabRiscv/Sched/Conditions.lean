import OslabRiscv.Sched.Ending

/-!
# Condition variables

The condition part of `lock.c`.  A waiter is queued at the condition and gives up its
mutex; a signal or a broadcast takes it out again and has it take the mutex, or queue
up for it.  The index of the mutex is the one the last waiter came with.
-/

namespace Sched

open IntrusiveList

def setCondition (k : Nat) (c : Condition) (s : State) : State :=
  { s with conditions := Function.update s.conditions k c }

/-- The mutex of a condition; its index is not checked. -/
def mutexOf (c : Condition) : Option Nat :=
  if 0 ≤ c.lockIdx ∧ c.lockIdx < lockNum then some c.lockIdx.toNat else none

def doConditionInit (key : Int) (s : State) : Int × State :=
  match findFrom (fun k => (s.conditions k).valid = false) conditionNum 0 with
  | none => (-1, s)
  | some k => (k, setCondition k { s.conditions k with key := key, valid := true } s)

def doConditionWait (cpu k mutex now : Nat) (s : State) : Except Stop State := do
  let i ← current cpu s
  if conditionNum ≤ k then .error .undefined
  else do
    let s := setStatus i .blocked s
    let s := setCondition k { s.conditions k with lockIdx := mutex } s
    let s ← addQueue (.cond k) i s
    let s ← doMutexLockRelease mutex s
    doScheduler cpu now s

/-- The mutex is taken for a PCB. -/
def takeFor (m i : Nat) (s : State) : State :=
  setLock m { s.mlocks m with locked := true, owner := (s.pcb i).pid } s

def doConditionSignal (cpu k now : Nat) (s : State) : Except Stop State :=
  if conditionNum ≤ k then .error .undefined
  else do
    let (i, s) ← getHead (.cond k) s
    match mutexOf (s.conditions k) with
    | none => .error .undefined
    | some m =>
      if (s.mlocks m).locked = false then .ok (takeFor m i s)
      else doBlock cpu i (.lock m) now s

/-- The loop of `do_condition_broadcast`. -/
def broadcastLoop (k : Nat) : Nat → State → Except Stop State
  | 0, _ => .error .endless
  | fuel + 1, s =>
    if listIsEmpty (.cond k) s.links then .ok s
    else do
      let (i, s) ← getHead (.cond k) s
      match mutexOf (s.conditions k) with
      | none => .error .undefined
      | some m =>
        if (s.mlocks m).locked = false then do
          let s ← addQueue .ready i (takeFor m i s)
          broadcastLoop k fuel s
        else do
          let s ← blockOn (.lock m) i s
          broadcastLoop k fuel s

def doConditionBroadcast (cpu k now : Nat) (s : State) : Except Stop State :=
  if conditionNum ≤ k then .error .undefined
  else do
    let s ← broadcastLoop k rounds s
    doScheduler cpu now s

def doConditionDestroy (k : Nat) (s : State) : Except Stop State :=
  if conditionNum ≤ k then .error .undefined
  else if listIsEmpty (.cond k) s.links then
    .ok (setCondition k ⟨-1, -1, false⟩ { s with links := initListHead (.cond k) s.links })
  else .ok s

/-! ## Moving a PCB from queue to queue -/

/-- The queues hold PCBs in use. -/
structure Linked (s : State) (q : Node → List Nat) : Prop extends Queues s q where
  bound : ∀ h i, i ∈ q h → i < numMaxTask
  live : ∀ h i, i ∈ q h → Live s i

section Linked

variable {n cpu k m : Nat} {s s' : State} {q : Node → List Nat} {h : Node} {i : Nat}
  {l : List Nat}

/-- The queues of a tidy state hold PCBs in use. -/
theorem Tidy.linked (ht : Tidy n s q) : Linked s q :=
  ⟨ht.queues, ht.bound, fun _ _ hi => ht.live_of_mem hi⟩

/-- No queue is longer than the loops over it go. -/
theorem Linked.length_lt (hq : Linked s q) : (q h).length < rounds :=
  length_lt_rounds hq.nodup (hq.bound h)

/-- What the queues do not depend on may change. -/
theorem Linked.congr (hq : Linked s q) (hlinks : s'.links = s.links) (hpcb : s'.pcb = s.pcb) :
    Linked s' q := by
  refine ⟨hq.toQueues.congr hlinks fun j _ => by rw [hpcb], hq.bound, fun b j hj => ?_⟩
  unfold Live
  rw [hpcb]
  exact hq.live b j hj

/-- The first PCB of a queue is taken out. -/
theorem Linked.getHead (hq : Linked s q) (heq : q h = i :: l) :
    getHead h s = .ok (i, delQueue i s) ∧ Linked (delQueue i s) (Function.update q h l) ∧
      ∀ b, i ∉ Function.update q h l b := by
  obtain ⟨hhead, hq'⟩ := hq.toQueues.getHead heq
  have hmem : i ∈ q h := by
    rw [heq]
    exact List.mem_cons_self
  have hsub : ∀ b, ∀ j ∈ Function.update q h l b, j ∈ q b := by
    intro b j hj
    by_cases hb : b = h
    · rw [hb, Function.update_self] at hj
      rw [hb, heq]
      exact List.mem_cons_of_mem _ hj
    · rwa [Function.update_of_ne hb] at hj
  refine ⟨hhead, ⟨hq', fun b j hj => hq.bound b j (hsub b j hj),
    fun b j hj => hq.live b j (hsub b j hj)⟩, fun b hb => ?_⟩
  have hbh : b = h := hq.unique (hsub b i hb) hmem
  rw [hbh, Function.update_self] at hb
  have hnd : (q h).Nodup := hq.nodup
  rw [heq] at hnd
  exact (List.nodup_cons.mp hnd).1 hb

/-- A PCB in use that is in no queue is given a status and enters one. -/
theorem Linked.put (hq : Linked s q) (hh : IsHead s h) (hfree : ∀ b, i ∉ q b)
    (hi : i < numMaxTask) (hl : Live s i) (st : Status) (hst : st ≠ .exited ∧ st ≠ .available) :
    ∃ l, addQueue h i (setStatus i st s) = .ok { setStatus i st s with links := l } ∧
      Linked { setStatus i st s with links := l } (Function.update q h (q h ++ [i])) := by
  have hav := setStatus_available (s := s) (i := i) hst.2 hl.2
  have hq₁ : Queues (setStatus i st s) q := hq.toQueues.congr rfl fun j _ => hav j
  have hh₁ : IsHead (setStatus i st s) h := by
    cases h with
    | wait j => exact ⟨hh.1, fun hj => hh.2 ((hav j).mp hj)⟩
    | _ => exact hh
  obtain ⟨l, hadd, hq₂⟩ := hq₁.add hh₁ hfree
  refine ⟨l, hadd, hq₂, fun b j hj => ?_, fun b j hj => ?_⟩
  · by_cases hji : j = i
    · exact hji ▸ hi
    · exact hq.bound b j ((mem_update_append hji).mp hj)
  · change Live (setStatus i st s) j
    by_cases hji : j = i
    · subst hji
      unfold Live
      rw [setStatus_pcb_self]
      exact hst
    · rw [live_setStatus_of_ne hji]
      exact hq.live b j ((mem_update_append hji).mp hj)

/-- A status is set that was there. -/
theorem setStatus_same (i : Nat) (s : State) : setStatus i (s.pcb i).status s = s := by
  unfold setStatus setPcb
  rw [Function.update_eq_self]

/-- The mutex of a condition is in the table. -/
theorem mutexOf_lt {c : Condition} (h : mutexOf c = some m) : m < lockNum := by
  unfold mutexOf at h
  split_ifs at h
  cases h
  omega

/-! ## The broadcast -/

/-- The waiters `w` of condition `k` were moved behind those of mutex `m`. -/
structure Joined (k m : Nat) (w : List Nat) (s : State) (q : Node → List Nat) (s' : State)
    (q' : Node → List Nat) : Prop where
  linked : Linked s' q'
  cond : q' (.cond k) = []
  lock : q' (.lock m) = q (.lock m) ++ w
  other : ∀ h, h ≠ .cond k → h ≠ .lock m → q' h = q h
  mlocks : s'.mlocks = s.mlocks
  pid : ∀ j, (s'.pcb j).pid = (s.pcb j).pid
  conditions : s'.conditions = s.conditions

/-- While the mutex is locked the loop moves every waiter to it. -/
theorem broadcastLoop_joined (hk : k < conditionNum) :
    ∀ (fuel : Nat) (w : List Nat) (s : State) (q : Node → List Nat), Linked s q →
      q (.cond k) = w → w.length < fuel → mutexOf (s.conditions k) = some m →
      (s.mlocks m).locked = true →
      ∃ s' q', broadcastLoop k fuel s = .ok s' ∧ Joined k m w s q s' q' := by
  intro fuel
  induction fuel with
  | zero =>
      intro w s q _ _ hfuel
      omega
  | succ fuel ih =>
      intro w s q hq hw hfuel hm hlocked
      have hh : IsHead s (.cond k) := hk
      unfold broadcastLoop
      cases w with
      | nil =>
          rw [if_pos ((hq.listIsEmpty hh).mpr hw)]
          exact ⟨s, q, rfl, hq, hw, by simp, fun _ _ _ => rfl, rfl, fun _ => rfl, rfl⟩
      | cons i w =>
          have hne : q (.cond k) ≠ [] := by
            rw [hw]
            exact List.cons_ne_nil _ _
          rw [if_neg (fun hempty => hne ((hq.listIsEmpty hh).mp hempty))]
          have hi : i ∈ q (.cond k) := by
            rw [hw]
            exact List.mem_cons_self
          obtain ⟨hhead, hq₁, hfree⟩ := hq.getHead hw
          obtain ⟨l, hadd, hq₂⟩ := hq₁.put (h := .lock m) (mutexOf_lt hm) hfree (hq.bound _ i hi)
            (hq.live _ i hi) .blocked ⟨by simp, by simp⟩
          have hcond : Function.update (Function.update q (.cond k) w) (.lock m)
              (Function.update q (.cond k) w (.lock m) ++ [i]) (.cond k) = w := by
            rw [Function.update_of_ne (by simp), Function.update_self]
          obtain ⟨s', q', hrun, hj⟩ := ih w _ _ hq₂ hcond
            (by rw [List.length_cons] at hfuel; omega) hm hlocked
          refine ⟨s', q', ?_, hj.linked, hj.cond, ?_, ?_, hj.mlocks, ?_, hj.conditions⟩
          · simp only [hhead, bind, Except.bind]
            change (match mutexOf (s.conditions k) with
              | none => _
              | some m => if (s.mlocks m).locked = false then _
                else blockOn (.lock m) i (delQueue i s) >>= broadcastLoop k fuel) = _
            simp only [hm, hlocked]
            unfold blockOn
            rw [hadd]
            exact hrun
          · rw [hj.lock, Function.update_self, Function.update_of_ne (by simp), List.append_assoc]
            rfl
          · intro h hc hl
            rw [hj.other h hc hl, Function.update_of_ne hl, Function.update_of_ne hc]
          · intro j
            rw [hj.pid j]
            exact setStatus_pid i j .blocked

/-- What a broadcast of condition `k` with mutex `m` does before it calls the scheduler. -/
structure Broadcast (k m : Nat) (s : State) (q : Node → List Nat) (s' : State)
    (q' : Node → List Nat) : Prop where
  linked : Linked s' q'
  empty : q' (.cond k) = []
  /-- A free mutex goes to the first waiter. -/
  free : (s.mlocks m).locked = false → ∀ w ws, q (.cond k) = w :: ws →
    s'.mlocks = Function.update s.mlocks m
      { s.mlocks m with locked := true, owner := (s.pcb w).pid } ∧
    q' .ready = q .ready ++ [w] ∧ q' (.lock m) = q (.lock m) ++ ws
  held : (s.mlocks m).locked = true →
    s'.mlocks = s.mlocks ∧ q' .ready = q .ready ∧ q' (.lock m) = q (.lock m) ++ q (.cond k)
  idle : q (.cond k) = [] → s' = s ∧ q' = q
  other : ∀ h, h ≠ .ready → h ≠ .cond k → h ≠ .lock m → q' h = q h
  pid : ∀ j, (s'.pcb j).pid = (s.pcb j).pid

/-- A PCB enters a queue with the status it has. -/
theorem Linked.append (hq : Linked s q) (hh : IsHead s h) (hfree : ∀ b, i ∉ q b)
    (hi : i < numMaxTask) (hl : Live s i) :
    ∃ l, addQueue h i s = .ok { s with links := l } ∧
      Linked { s with links := l } (Function.update q h (q h ++ [i])) := by
  have hput := hq.put hh hfree hi hl (s.pcb i).status hl
  rwa [setStatus_same] at hput

/-- The loop moves all waiters to the mutex. -/
theorem broadcastLoop_spec (hq : Linked s q) (hk : k < conditionNum)
    (hlock : q (.cond k) ≠ [] → mutexOf (s.conditions k) = some m) :
    ∃ s' q', broadcastLoop k rounds s = .ok s' ∧ Broadcast k m s q s' q' := by
  have hh : IsHead s (.cond k) := hk
  have hlen : (q (.cond k)).length < rounds := hq.length_lt
  cases hw : q (.cond k) with
  | nil =>
      refine ⟨s, q, ?_, hq, hw, ?_, ?_, fun _ => ⟨rfl, rfl⟩, fun _ _ _ _ => rfl, fun _ => rfl⟩
      · unfold rounds broadcastLoop
        rw [if_pos ((hq.listIsEmpty hh).mpr hw)]
      · intro _ w ws hcons
        rw [hw] at hcons
        cases hcons
      · intro _
        rw [hw, List.append_nil]
        exact ⟨rfl, rfl, rfl⟩
  | cons w ws =>
      have hmut := hlock (by rw [hw]; exact List.cons_ne_nil _ _)
      rw [hw] at hlen
      cases hlocked : (s.mlocks m).locked with
      | true =>
          obtain ⟨s', q', hrun, hj⟩ :=
            broadcastLoop_joined hk rounds _ s q hq hw hlen hmut hlocked
          refine ⟨s', q', hrun, hj.linked, hj.cond, ?_, ?_, ?_, ?_, hj.pid⟩
          · intro hfree
            rw [hlocked] at hfree
            cases hfree
          · intro _
            rw [hj.lock, hw]
            exact ⟨hj.mlocks, hj.other _ (by simp) (by simp), rfl⟩
          · intro hnil
            rw [hw] at hnil
            cases hnil
          · exact fun h _ hc hl => hj.other h hc hl
      | false =>
          -- the first waiter takes the mutex, which is locked then
          have hmem : w ∈ q (.cond k) := by
            rw [hw]
            exact List.mem_cons_self
          obtain ⟨hhead, hq₁, hfree⟩ := hq.getHead hw
          have hq₂ : Linked (takeFor m w (delQueue w s)) (Function.update q (.cond k) ws) :=
            hq₁.congr rfl rfl
          obtain ⟨l, hadd, hq₃⟩ := hq₂.append (h := .ready) trivial hfree (hq.bound _ w hmem)
            (hq.live _ w hmem)
          have hcond : Function.update (Function.update q (.cond k) ws) .ready
              (Function.update q (.cond k) ws .ready ++ [w]) (.cond k) = ws := by
            rw [Function.update_of_ne (by simp), Function.update_self]
          have htaken : ((takeFor m w (delQueue w s)).mlocks m).locked = true := by
            change (Function.update s.mlocks m _ m).locked = true
            rw [Function.update_self]
          have hlen' : ws.length < numMaxTask := by
            rw [List.length_cons] at hlen
            exact Nat.lt_of_succ_lt_succ hlen
          obtain ⟨s', q', hrun, hj⟩ := broadcastLoop_joined hk numMaxTask ws _ _ hq₃ hcond
            hlen' hmut htaken
          refine ⟨s', q', ?_, hj.linked, hj.cond, ?_, ?_, ?_, ?_, hj.pid⟩
          · have hne : q (.cond k) ≠ [] := by
              rw [hw]
              exact List.cons_ne_nil _ _
            unfold rounds broadcastLoop
            rw [if_neg (fun hempty => hne ((hq.listIsEmpty hh).mp hempty))]
            simp only [hhead, bind, Except.bind]
            change (match mutexOf (s.conditions k) with
              | none => _
              | some m => if (s.mlocks m).locked = false then
                  addQueue .ready w (takeFor m w (delQueue w s)) >>=
                    broadcastLoop k numMaxTask
                else _) = _
            simp only [hmut, hlocked, if_true]
            rw [hadd]
            exact hrun
          · intro _ v vs hcons
            rw [hw] at hcons
            cases hcons
            refine ⟨hj.mlocks, ?_, ?_⟩
            · rw [hj.other _ (by simp) (by simp), Function.update_self,
                Function.update_of_ne (by simp)]
            · rw [hj.lock, Function.update_of_ne (by simp), Function.update_of_ne (by simp)]
          · intro hcon
            rw [hlocked] at hcon
            cases hcon
          · intro hnil
            rw [hw] at hnil
            cases hnil
          · intro h hr hc hl
            rw [hj.other h hc hl, Function.update_of_ne hr, Function.update_of_ne hc]

/-! ## The releases that follow -/

/-- A mutex is released so many times. -/
def handOvers (m : Nat) : Nat → State → Except Stop State
  | 0, s => .ok s
  | j + 1, s => do
    let s ← doMutexLockRelease m s
    handOvers m j s

/-- A release hands the mutex to the first in its queue. -/
theorem release_first (hq : Linked s q) (hm : m < lockNum) (heq : q (.lock m) = i :: l) :
    ∃ s' q', doMutexLockRelease m s = .ok s' ∧ Linked s' q' ∧
      s'.mlocks m = { s.mlocks m with owner := (s.pcb i).pid } ∧ q' (.lock m) = l ∧
      q' .ready = q .ready ++ [i] ∧ ∀ j, (s'.pcb j).pid = (s.pcb j).pid := by
  have hh : IsHead s (.lock m) := hm
  have hi : i ∈ q (.lock m) := by
    rw [heq]
    exact List.mem_cons_self
  have hne : q (.lock m) ≠ [] := by
    rw [heq]
    exact List.cons_ne_nil _ _
  have hq₀ : Linked (setLock m { s.mlocks m with owner := (s.pcb i).pid } s) q :=
    hq.congr rfl rfl
  obtain ⟨hhead, hq₁, hfree⟩ := hq₀.getHead heq
  obtain ⟨l', hadd, hq₂⟩ := hq₁.put (h := .ready) trivial hfree (hq.bound _ i hi)
    (hq.live _ i hi) .ready ⟨by simp, by simp⟩
  have hnext : s.links.next (.lock m) = some (.task i) := by
    rw [hq.next_head hh, heq]
    rfl
  refine ⟨_, _, ?_, hq₂, ?_, ?_, ?_, fun j => setStatus_pid i j .ready⟩
  · unfold doMutexLockRelease
    rw [if_neg (by omega), if_neg (fun hempty => hne ((hq.listIsEmpty hh).mp hempty)), hnext]
    change doUnblock (.lock m) (setLock m { s.mlocks m with owner := (s.pcb i).pid } s) = _
    unfold doUnblock
    rw [hhead]
    exact hadd
  · exact Function.update_self _ _ _
  · rw [Function.update_of_ne (by simp), Function.update_self]
  · rw [Function.update_self, Function.update_of_ne (by simp)]

/-- A release with an empty queue frees the mutex. -/
theorem release_last (hq : Linked s q) (hm : m < lockNum) (heq : q (.lock m) = []) :
    ∃ s', doMutexLockRelease m s = .ok s' ∧
      s'.mlocks m = { s.mlocks m with locked := false, owner := -1 } := by
  refine ⟨setLock m { s.mlocks m with locked := false, owner := -1 } s, ?_,
    Function.update_self _ _ _⟩
  unfold doMutexLockRelease
  rw [if_neg (by omega), if_pos ((hq.listIsEmpty (h := .lock m) hm).mpr heq)]

/-- The mutex goes to the tasks in its queue, in their order, and is free at last. -/
structure HandedOn (m : Nat) (s : State) (q : Node → List Nat) : Prop where
  next : ∀ done i rest, q (.lock m) = done ++ i :: rest →
    ∃ s' q', handOvers m (done.length + 1) s = .ok s' ∧ Linked s' q' ∧
      s'.mlocks m = { s.mlocks m with owner := (s.pcb i).pid } ∧ q' (.lock m) = rest ∧
      q' .ready = q .ready ++ done ++ [i]
  last : ∃ s', handOvers m ((q (.lock m)).length + 1) s = .ok s' ∧
    s'.mlocks m = { s.mlocks m with locked := false, owner := -1 }

/-- The next hand-over, by induction on those before. -/
theorem handOvers_next (hm : m < lockNum) (done : List Nat) :
    ∀ (s : State) (q : Node → List Nat), Linked s q → ∀ i rest, q (.lock m) = done ++ i :: rest →
      ∃ s' q', handOvers m (done.length + 1) s = .ok s' ∧ Linked s' q' ∧
        s'.mlocks m = { s.mlocks m with owner := (s.pcb i).pid } ∧ q' (.lock m) = rest ∧
        q' .ready = q .ready ++ done ++ [i] := by
  induction done with
  | nil =>
      intro s q hq i rest heq
      obtain ⟨s', q', hrun, hq', hlock, hrest, hready, _⟩ := release_first hq hm heq
      refine ⟨s', q', ?_, hq', hlock, hrest, by rw [hready, List.append_nil]⟩
      change doMutexLockRelease m s >>= handOvers m 0 = _
      rw [hrun]
      rfl
  | cons j done ih =>
      intro s q hq i rest heq
      obtain ⟨s₁, q₁, hrun₁, hq₁, hlock₁, hrest₁, hready₁, hpid₁⟩ := release_first hq hm heq
      obtain ⟨s', q', hrun, hq', hlock, hrest, hready⟩ := ih s₁ q₁ hq₁ i rest hrest₁
      refine ⟨s', q', ?_, hq', ?_, hrest, ?_⟩
      · change doMutexLockRelease m s >>= handOvers m (done.length + 1) = _
        rw [hrun₁]
        exact hrun
      · rw [hlock, hlock₁, hpid₁ i]
      · rw [hready, hready₁]
        simp only [List.append_assoc, List.cons_append, List.nil_append]

/-- After the last one the mutex is free, by induction on the queue. -/
theorem handOvers_last (hm : m < lockNum) :
    ∀ (l : List Nat) (s : State) (q : Node → List Nat), Linked s q → q (.lock m) = l →
      ∃ s', handOvers m (l.length + 1) s = .ok s' ∧
        s'.mlocks m = { s.mlocks m with locked := false, owner := -1 } := by
  intro l
  induction l with
  | nil =>
      intro s q hq heq
      obtain ⟨s', hrun, hlock⟩ := release_last hq hm heq
      refine ⟨s', ?_, hlock⟩
      change doMutexLockRelease m s >>= handOvers m 0 = _
      rw [hrun]
      rfl
  | cons i l ih =>
      intro s q hq heq
      obtain ⟨s₁, q₁, hrun₁, hq₁, hlock₁, hrest₁, _, _⟩ := release_first hq hm heq
      obtain ⟨s', hrun, hlock⟩ := ih s₁ q₁ hq₁ hrest₁
      refine ⟨s', ?_, by rw [hlock, hlock₁]⟩
      change doMutexLockRelease m s >>= handOvers m (l.length + 1) = _
      rw [hrun₁]
      exact hrun

/-- The mutex is handed on along its queue. -/
theorem Linked.handedOn (hq : Linked s q) (hm : m < lockNum) : HandedOn m s q :=
  ⟨fun done i rest heq => handOvers_next hm done s q hq i rest heq,
    handOvers_last hm _ s q hq rfl⟩

end Linked

end Sched
