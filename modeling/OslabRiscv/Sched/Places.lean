import OslabRiscv.Lib.WaitingLine
import OslabRiscv.Sched.Cores
import OslabRiscv.Sched.Selection

/-!
# Places in the queues

What a call does to a task in a queue that it does not end: a ready task comes no further from its
turn, a sleeper leaves its queue only when its time has come, and who waits for a task only when
that one ends.  `Stays` says this of the parts of a call before it reschedules, `Advances` of the
whole call.
-/

namespace Sched

open IntrusiveList Outcome WaitingLine

/-- A core runs the task. -/
def Runs (n i : Nat) (s : State) : Prop :=
  ∃ c, c < n ∧ s.coreRunning c = .task i ∧ (s.pcb i).status = .running

section Calls

/-- The clock values that a call may reschedule at. -/
def Call.clock : Call → Nat → Prop
  | .exit now, t | .kill _ now, t | .waitpid _ now, t | .sleep _ _ now, t | .schedule now, t
  | .acquire _ now, t | .barrierWait _ now, t => t = now
  | .tick now now', t => t = now ∨ t = now'
  | _, _ => False

/-- The clock value at which a call reschedules in every state. -/
def Call.turn : Call → Option Nat
  | .schedule now | .tick _ now => some now
  | _ => none

/-- The task that a call on the core ends. -/
def ends (cpu : Nat) (s : State) : Call → Option Nat
  | .exit _ =>
    match s.coreRunning cpu with
    | .task j => some j
    | .idle => none
  | .kill pid _ => findPid pid s
  | _ => none

end Calls

/-- What the scheduler reads of a task is as before. -/
def ReadsSame (i : Nat) (s s' : State) : Prop :=
  (s'.pcb i).mask = (s.pcb i).mask ∧ (s'.pcb i).wakeupTime = (s.pcb i).wakeupTime

/-- Task `i` stays in line, or leaves its queue for the reason there is: its time has come, or the
task `d` it waits for ends. -/
structure Stays (i : Nat) (d : Option Nat) (clock : Nat → Prop) (s : State) (q : Node → List Nat)
    (s' : State) (q' : Node → List Nat) : Prop where
  line : ∀ ahead, InLine i ahead (q .ready) →
    ∃ ahead', InLine i ahead' (q' .ready) ∧ ahead'.length ≤ ahead.length
  sleep : i ∈ q .sleep → i ∈ q' .sleep ∨
    i ∈ q' .ready ∧ ∃ now, clock now ∧ (s.pcb i).wakeupTime ≤ now
  wait : ∀ j, i ∈ q (.wait j) → i ∈ q' (.wait j) ∨ i ∈ q' .ready ∧ d = some j
  same : ReadsSame i s s'

section Stays

variable {n cpu i j k : Nat} {d : Option Nat} {clock : Nat → Prop} {s s' s₁ s₂ : State}
  {q q' q₁ q₂ : Node → List Nat} {h : Node}

theorem Stays.refl : Stays i d clock s q s q where
  line ahead hline := ⟨ahead, hline, le_refl _⟩
  sleep := .inl
  wait _ := .inl
  same := ⟨rfl, rfl⟩

/-- A task in the ready queue stays there. -/
theorem Stays.ready (h : Stays i d clock s q s' q') (hi : i ∈ q .ready) : i ∈ q' .ready := by
  obtain ⟨ahead, hline⟩ := exists_inLine hi
  obtain ⟨ahead', hline', _⟩ := h.line ahead hline
  exact hline'.mem

theorem Stays.trans (h₁ : Stays i d clock s q s₁ q₁) (h₂ : Stays i d clock s₁ q₁ s₂ q₂) :
    Stays i d clock s q s₂ q₂ where
  line ahead hline := by
    obtain ⟨ahead₁, hline₁, hle₁⟩ := h₁.line ahead hline
    obtain ⟨ahead₂, hline₂, hle₂⟩ := h₂.line ahead₁ hline₁
    exact ⟨ahead₂, hline₂, hle₂.trans hle₁⟩
  sleep hi := by
    rcases h₁.sleep hi with hi₁ | ⟨hi₁, now, hclock, hle⟩
    · rcases h₂.sleep hi₁ with hi₂ | ⟨hi₂, now, hclock, hle⟩
      · exact .inl hi₂
      · exact .inr ⟨hi₂, now, hclock, h₁.same.2 ▸ hle⟩
    · exact .inr ⟨h₂.ready hi₁, now, hclock, hle⟩
  wait j hi := by
    rcases h₁.wait j hi with hi₁ | ⟨hi₁, hd⟩
    · exact h₂.wait j hi₁
    · exact .inr ⟨h₂.ready hi₁, hd⟩
  same := ⟨h₂.same.1.trans h₁.same.1, h₂.same.2.trans h₁.same.2⟩

/-- Nothing that is read of the task changes, nor any queue. -/
theorem Stays.of_same (hsame : ReadsSame i s s') : Stays i d clock s q s' q :=
  ⟨fun ahead hline => ⟨ahead, hline, le_refl _⟩, .inl, fun _ => .inl, hsame⟩

/-- A status is not what the scheduler reads of a task in line. -/
theorem setStatus_reads (j i : Nat) (st : Status) : ReadsSame i s (setStatus j st s) := by
  unfold ReadsSame
  by_cases hi : i = j
  · subst hi
    change (Function.update s.pcb i _ i).mask = _ ∧ (Function.update s.pcb i _ i).wakeupTime = _
    rw [Function.update_self]
    exact ⟨rfl, rfl⟩
  · rw [setStatus_pcb_of_ne hi]
    exact ⟨rfl, rfl⟩

/-! ## The parts of the calls -/

/-- Another task enters a queue at its end. -/
theorem Stays.enter (hsame : ReadsSame i s s') :
    Stays i d clock s q s' (Function.update q h (q h ++ [j])) := by
  have hstay : ∀ b, q b <+: Function.update q h (q h ++ [j]) b := by
    intro b
    by_cases hb : b = h
    · subst hb
      rw [Function.update_self]
      exact List.prefix_append _ _
    · rw [Function.update_of_ne hb]
  exact {
    line := fun ahead hline => ⟨ahead, hline.prefix (hstay .ready), le_refl _⟩
    sleep := fun hi => .inl ((hstay .sleep).mem hi)
    wait := fun b hi => .inl ((hstay (.wait b)).mem hi)
    same := hsame }

/-- Another task leaves its queue. -/
theorem Stays.leave (hne : j ≠ i) (hsame : ReadsSame i s s') :
    Stays i d clock s q s' (fun b => (q b).erase j) where
  line ahead hline := ⟨ahead.erase j, hline.erase hne, List.length_erase_le⟩
  sleep hi := .inl ((List.mem_erase_of_ne hne.symm).mpr hi)
  wait _ hi := .inl ((List.mem_erase_of_ne hne.symm).mpr hi)
  same := hsame

/-- A task of a queue is woken: the sleepers only at their time, those who wait for a task only at
its end. -/
theorem Stays.woken (hq : Queues s q) (hk : k ∈ q h)
    (hsleep : h = .sleep → ∃ now, clock now ∧ (s.pcb k).wakeupTime ≤ now)
    (hwait : ∀ j, h = .wait j → d = some j) (hsame : ReadsSame i s s') :
    Stays i d clock s q s' (woken k q) := by
  have hready : q .ready <+: Sched.woken k q .ready := by
    unfold Sched.woken
    rw [Function.update_self]
    exact List.prefix_append _ _
  have hself : k ∈ Sched.woken k q .ready := by
    unfold Sched.woken
    rw [Function.update_self]
    exact List.mem_append_right _ List.mem_cons_self
  exact {
    line := fun ahead hline => ⟨ahead, hline.prefix hready, le_refl _⟩
    sleep := fun hi => by
      by_cases hik : i = k
      · subst hik
        exact .inr ⟨hself, hsleep (hq.unique hk hi)⟩
      · exact .inl ((mem_woken hik).mpr hi)
    wait := fun j hi => by
      by_cases hik : i = k
      · subst hik
        exact .inr ⟨hself, hwait j (hq.unique hk hi)⟩
      · exact .inl ((mem_woken hik).mpr hi)
    same := hsame }

/-- `do_unblock`, where it returns. -/
theorem doUnblock_stays (ht : Tidy n s q) (hh : IsHead s h) (hr : h ≠ .ready) (hs : h ≠ .sleep)
    (hd : ∀ j, h = .wait j → d = some j) (hok : doUnblock h s = .ok s') :
    ∃ k l, k ∈ q h ∧ s' = { setStatus k .ready s with links := l } ∧ Tidy n s' (woken k q) ∧
      Stays i d clock s q s' (woken k q) := by
  cases hq : q h with
  | nil =>
      have hnext := ht.queues.next_head hh
      rw [hq] at hnext
      unfold doUnblock getHead at hok
      rw [hnext] at hok
      cases h with
      | task j => exact hh.elim
      | _ => cases hok
  | cons k rest =>
      have hk : k ∈ q h := hq ▸ List.mem_cons_self
      obtain ⟨l, hadd, ht'⟩ := ht.wake hk hr
      unfold doUnblock at hok
      rw [(ht.queues.getHead hq).1] at hok
      cases hadd.symm.trans hok
      exact ⟨k, l, hq ▸ hk, rfl, ht',
        .woken ht.queues hk (fun hcon => absurd hcon hs) hd (setStatus_reads k i .ready)⟩

/-- `do_mutex_lock_release`, whoever calls it. -/
theorem doMutexLockRelease_stays (ht : Tidy n s q) (hok : doMutexLockRelease k s = .ok s') :
    ∃ q', Tidy n s' q' ∧ Stays i d clock s q s' q' := by
  unfold doMutexLockRelease at hok
  by_cases hk : lockNum ≤ k
  · rw [if_pos hk] at hok
    cases hok
  rw [if_neg hk] at hok
  by_cases hempty : listIsEmpty (.lock k) s.links
  · rw [if_pos hempty] at hok
    cases hok
    exact ⟨q, ht.congr rfl (fun _ => rfl) rfl, .of_same ⟨rfl, rfl⟩⟩
  · rw [if_neg hempty] at hok
    cases hnext : s.links.next (.lock k) with
    | none =>
        rw [hnext] at hok
        cases hok
    | some node =>
        rw [hnext] at hok
        cases node with
        | task j =>
            have ht₁ : Tidy n (setLock k { s.mlocks k with owner := (s.pcb j).pid } s) q :=
              ht.congr rfl (fun _ => rfl) rfl
            have hh : IsHead (setLock k { s.mlocks k with owner := (s.pcb j).pid } s) (.lock k) :=
              Nat.not_le.mp hk
            obtain ⟨m, l, _, _, ht', hstays⟩ :=
              doUnblock_stays ht₁ hh (by simp) (by simp) (fun j hj => by cases hj) hok
            have howned : Stays i d clock s q
                (setLock k { s.mlocks k with owner := (s.pcb j).pid } s) q := .of_same ⟨rfl, rfl⟩
            exact ⟨_, ht', howned.trans hstays⟩
        | _ => cases hok

/-- The locks of a task that ends, by induction on the rest of the table. -/
theorem releasePcbLock_stays {pid : Int} : ∀ (left k : Nat) (s : State) (q : Node → List Nat),
    Tidy n s q → releasePcbLock pid left k s = .ok s' →
    ∃ q', Tidy n s' q' ∧ Stays i d clock s q s' q' := by
  intro left
  induction left with
  | zero =>
      intro k s q ht hok
      cases hok
      exact ⟨q, ht, .refl⟩
  | succ left ih =>
      intro k s q ht hok
      unfold releasePcbLock at hok
      by_cases hown : (s.mlocks k).owner = pid
      · rw [if_pos hown] at hok
        obtain ⟨s₁, hrel, hrest⟩ := exists_of_bind_ok hok
        obtain ⟨q₁, ht₁, hstays₁⟩ := doMutexLockRelease_stays ht hrel
        obtain ⟨q', ht', hstays⟩ := ih (k + 1) s₁ q₁ ht₁ hrest
        exact ⟨q', ht', hstays₁.trans hstays⟩
      · rw [if_neg hown] at hok
        exact ih (k + 1) s q ht hok

/-- The tasks that wait for `j` are woken, and no others. -/
theorem drainLoop_stays {side : Links Node → Node → Option Node} (hj : j < numMaxTask) :
    ∀ (fuel : Nat) (s : State) (q : Node → List Nat), Tidy n s q →
      (s.pcb j).status ≠ .available → drainLoop side j fuel s = .ok s' →
      ∃ q', Tidy n s' q' ∧ Stays i (some j) clock s q s' q' ∧ q' (.wait j) = [] := by
  intro fuel
  induction fuel with
  | zero =>
      intro s q _ _ hok
      cases hok
  | succ fuel ih =>
      intro s q ht hav hok
      have hh : IsHead s (.wait j) := ⟨hj, hav⟩
      unfold drainLoop at hok
      by_cases hempty : listIsEmpty (.wait j) s.links
      · rw [if_pos hempty] at hok
        cases hok
        exact ⟨q, ht, .refl, (ht.queues.listIsEmpty hh).mp hempty⟩
      · rw [if_neg hempty] at hok
        cases hside : side s.links (.wait j) with
        | none =>
            rw [hside] at hok
            cases hok
        | some node =>
            rw [hside] at hok
            cases node with
            | task m =>
                simp only at hok
                by_cases hst : (s.pcb m).status ≠ .exited
                · rw [if_pos hst] at hok
                  obtain ⟨s₁, hub, hrest⟩ := exists_of_bind_ok hok
                  obtain ⟨k, l, _, rfl, ht₁, hstays₁⟩ := doUnblock_stays (i := i)
                    (d := some j) ht hh (by simp) (by simp) (fun _ hw => by cases hw; rfl) hub
                  have hav₁ : ((setStatus k .ready s).pcb j).status ≠ .available := by
                    by_cases hjk : j = k
                    · rw [hjk, setStatus_pcb_self]
                      simp
                    · rw [setStatus_pcb_of_ne hjk]
                      exact hav
                  obtain ⟨q', ht', hstays, hnil⟩ := ih _ _ ht₁ hav₁ hrest
                  exact ⟨q', ht', hstays₁.trans hstays, hnil⟩
                · rw [if_neg hst] at hok
                  exact ih s q ht hav hok
            | _ => cases hok

/-- The tasks at a barrier, by induction on their number. -/
theorem barrierLoop_stays (hk : k < barrierNum) : ∀ (fuel : Nat) (s : State) (q : Node → List Nat),
    Tidy n s q → barrierLoop k fuel s = .ok s' →
    ∃ q', Tidy n s' q' ∧ Stays i d clock s q s' q' := by
  intro fuel
  induction fuel with
  | zero =>
      intro s q _ hok
      cases hok
  | succ fuel ih =>
      intro s q ht hok
      have hh : IsHead s (.barrier k) := hk
      unfold barrierLoop at hok
      by_cases hempty : listIsEmpty (.barrier k) s.links
      · rw [if_pos hempty] at hok
        cases hok
        exact ⟨q, ht, .refl⟩
      · rw [if_neg hempty] at hok
        obtain ⟨s₁, hub, hrest⟩ := exists_of_bind_ok hok
        obtain ⟨m, _, _, _, ht₁, hstays₁⟩ :=
          doUnblock_stays ht hh (by simp) (by simp) (fun _ hw => by cases hw) hub
        have hcounted : Stays i d clock s₁ (woken m q)
            (setBarrier k { s₁.barriers k with num := (s₁.barriers k).num + 1 } s₁) (woken m q) :=
          .of_same ⟨rfl, rfl⟩
        obtain ⟨q', ht', hstays⟩ :=
          ih (setBarrier k { s₁.barriers k with num := (s₁.barriers k).num + 1 } s₁) _
            (ht₁.congr rfl (fun _ => rfl) rfl) hrest
        exact ⟨q', ht', (hstays₁.trans hcounted).trans hstays⟩

end Stays

/-! ## Rescheduling -/

/-- What a call does to task `i` in a queue.  It runs then, or has come no further from its turn,
and closer to it if the call reschedules a core that it may run on. -/
structure Advances (n i cpu : Nat) (d : Option Nat) (clock : Nat → Prop) (turn : Option Nat)
    (s : State) (q : Node → List Nat) (s' : State) (q' : Node → List Nat) : Prop where
  line : ∀ ahead, InLine i ahead (q .ready) → Runs n i s' ∨
    ∃ ahead', InLine i ahead' (q' .ready) ∧ ahead'.length ≤ ahead.length ∧
      (turn.isSome → (s.pcb i).mask.testBit cpu → ahead'.length < ahead.length)
  sleep : i ∈ q .sleep →
    i ∈ q' .sleep ∧ (∀ now, turn = some now → now < (s.pcb i).wakeupTime) ∨
    (i ∈ q' .ready ∨ Runs n i s') ∧ ∃ now, clock now ∧ (s.pcb i).wakeupTime ≤ now
  wait : ∀ j, i ∈ q (.wait j) →
    i ∈ q' (.wait j) ∨ (i ∈ q' .ready ∨ Runs n i s') ∧ d = some j
  same : ReadsSame i s s'

section Advances

variable {n cpu i j k now : Nat} {d turn : Option Nat} {clock : Nat → Prop} {s s' s₁ s₂ : State}
  {q q' q₁ q₂ : Node → List Nat} {h : Node}

/-- A task that stays has lost nothing. -/
theorem Stays.advances (h : Stays i d clock s q s' q') :
    Advances n i cpu d clock none s q s' q' where
  line ahead hline := by
    obtain ⟨ahead', hline', hle⟩ := h.line ahead hline
    exact .inr ⟨ahead', hline', hle, fun hcon => by cases hcon⟩
  sleep hi := by
    rcases h.sleep hi with hi' | ⟨hi', hdue⟩
    · exact .inl ⟨hi', fun _ hcon => by cases hcon⟩
    · exact .inr ⟨.inl hi', hdue⟩
  wait j hi := by
    rcases h.wait j hi with hi' | ⟨hi', hd⟩
    · exact .inl hi'
    · exact .inr ⟨.inl hi', hd⟩
  same := h.same

/-- A ready task stays ready or runs. -/
theorem Advances.ready (h : Advances n i cpu d clock turn s q s' q') (hi : i ∈ q .ready) :
    i ∈ q' .ready ∨ Runs n i s' := by
  obtain ⟨ahead, hline⟩ := exists_inLine hi
  rcases h.line ahead hline with hruns | ⟨ahead', hline', _⟩
  · exact .inr hruns
  · exact .inl hline'.mem

/-- A part in which the task stays, before one that may switch. -/
theorem Stays.trans_advances (h₁ : Stays i d clock s q s₁ q₁)
    (h₂ : Advances n i cpu d clock turn s₁ q₁ s' q') :
    Advances n i cpu d clock turn s q s' q' where
  line ahead hline := by
    obtain ⟨ahead₁, hline₁, hle₁⟩ := h₁.line ahead hline
    rcases h₂.line ahead₁ hline₁ with hruns | ⟨ahead', hline', hle, hlt⟩
    · exact .inl hruns
    · refine .inr ⟨ahead', hline', hle.trans hle₁, fun hturn hmask => ?_⟩
      rw [← h₁.same.1] at hmask
      exact lt_of_lt_of_le (hlt hturn hmask) hle₁
  sleep hi := by
    rcases h₁.sleep hi with hi₁ | ⟨hi₁, hdue⟩
    · have hsleep := h₂.sleep hi₁
      rw [h₁.same.2] at hsleep
      exact hsleep
    · exact .inr ⟨h₂.ready hi₁, hdue⟩
  wait j hi := by
    rcases h₁.wait j hi with hi₁ | ⟨hi₁, hd⟩
    · exact h₂.wait j hi₁
    · exact .inr ⟨h₂.ready hi₁, hd⟩
  same := ⟨h₂.same.1.trans h₁.same.1, h₂.same.2.trans h₁.same.2⟩

/-- Nothing is promised of a call without a turn of its own. -/
theorem no_turn (t : Nat) (h : (none : Option Nat) = some t) : t = now := by
  cases h

/-- `do_scheduler`. -/
theorem doScheduler_advances (ht : Tidy n s q) (hcpu : cpu < n)
    (hpid : ∀ j, s.coreRunning cpu = .task j → (s.pcb j).status = .running → (s.pcb j).pid ≠ 0)
    (hclock : clock now) (hturn : ∀ t, turn = some t → t = now)
    (hok : doScheduler cpu now s = .ok s') :
    ∃ q', Queues s' q' ∧ (∀ h, (q' h).length < rounds) ∧
      Advances n i cpu d clock turn s q s' q' := by
  obtain ⟨t, r, heq, ht', hready, hsleep, hother, hpcb, hcore⟩ := doScheduler_lineup ht hcpu hpid now
  rw [hok] at heq
  have hsame : ReadsSame i s t := by
    unfold ReadsSame
    rw [hpcb i]
    exact ⟨rfl, rfl⟩
  have hline : ∀ ahead, InLine i ahead (q .ready) → InLine i ahead (r .ready) := by
    intro ahead hline
    rw [hready]
    exact hline.prefix (List.prefix_append_of_prefix (List.prefix_append _ _))
  have hdue : i ∈ q .sleep → (i ∈ r .ready ∧ (s.pcb i).wakeupTime ≤ now) ∨
      (i ∈ r .sleep ∧ now < (s.pcb i).wakeupTime) := by
    intro hi
    by_cases hw : (s.pcb i).wakeupTime ≤ now
    · refine .inl ⟨?_, hw⟩
      have hmem : i ∈ (q .sleep).filter (isDue now s) :=
        List.mem_filter.mpr ⟨hi, decide_eq_true hw⟩
      rw [hready]
      exact List.mem_append_left _ (List.mem_append_right _ hmem)
    · refine .inr ⟨?_, Nat.not_le.mp hw⟩
      rw [hsleep]
      refine List.mem_filter.mpr ⟨hi, ?_⟩
      simp [isDue, hw]
  have hwait : ∀ j, r (.wait j) = q (.wait j) := fun j => hother _ (by simp) (by simp)
  cases hc : chosen cpu now s q with
  | none =>
      rw [hc] at heq
      cases heq
      refine ⟨r, ht'.queues.congr rfl fun _ _ => Iff.rfl, fun _ => ht'.length_lt, ?_, ?_, ?_, hsame⟩
      · intro ahead hahead
        refine .inr ⟨ahead, hline ahead hahead, le_refl _, fun _ hmask => ?_⟩
        obtain ⟨j, hfind, _⟩ := (hready ▸ hline ahead hahead).find
          (p := fun i => (s.pcb i).mask.testBit cpu) hmask
        cases hfind.symm.trans hc
      · intro hi
        rcases hdue hi with ⟨hi', hle⟩ | ⟨hi', hlt⟩
        · exact .inr ⟨.inl hi', now, hclock, hle⟩
        · exact .inl ⟨hi', fun u hu => hturn u hu ▸ hlt⟩
      · intro j hi
        exact .inl (hwait j ▸ hi)
  | some j =>
      rw [hc] at heq
      cases heq
      have hj : j ∈ r .ready := hready ▸ List.mem_of_find?_eq_some hc
      have hq' : Queues (dispatch cpu (some j) (delQueue j t)) fun b => (r b).erase j :=
        ht'.queues.del_any.congr rfl fun m _ =>
          setStatus_available (by simp) (ht'.live_of_mem hj).2 m
      have hlen : ∀ h, ((r h).erase j).length < rounds := fun h =>
        lt_of_le_of_lt List.length_erase_le ht'.length_lt
      have hsame' : ReadsSame i s (dispatch cpu (some j) (delQueue j t)) := by
        have hset := setStatus_reads (s := t) j i .running
        exact ⟨hset.1.trans hsame.1, hset.2.trans hsame.2⟩
      refine ⟨_, hq', hlen, ?_⟩
      by_cases hij : j = i
      · subst hij
        have hruns : Runs n j (dispatch cpu (some j) (delQueue j t)) :=
          ⟨cpu, hcpu, Function.update_self _ _ _, setStatus_pcb_self j .running⟩
        refine ⟨fun _ _ => .inl hruns, fun hi => ?_, fun m hi => ?_, hsame'⟩
        · rcases hdue hi with ⟨_, hle⟩ | ⟨hi', _⟩
          · exact .inr ⟨.inr hruns, now, hclock, hle⟩
          · cases ht'.queues.unique hj hi'
        · rw [← hwait m] at hi
          cases ht'.queues.unique hj hi
      · have hkeep : ∀ b, i ∈ r b → i ∈ (r b).erase j := fun b hi =>
          (List.mem_erase_of_ne (Ne.symm hij)).mpr hi
        refine ⟨fun ahead hahead => ?_, fun hi => ?_, fun m hi => ?_, hsame'⟩
        · have hin := hline ahead hahead
          refine .inr ⟨ahead.erase j, hin.erase hij, List.length_erase_le, fun _ hmask => ?_⟩
          obtain ⟨m, hfind, hm⟩ := (hready ▸ hin).find
            (p := fun i => (s.pcb i).mask.testBit cpu) hmask
          cases hfind.symm.trans hc
          have hahead := hm.resolve_left hij
          rw [List.length_erase_of_mem hahead]
          exact Nat.pred_lt (Nat.ne_of_gt (List.length_pos_of_mem hahead))
        · rcases hdue hi with ⟨hi', hle⟩ | ⟨hi', hlt⟩
          · exact .inr ⟨.inl (hkeep _ hi'), now, hclock, hle⟩
          · exact .inl ⟨hkeep _ hi', fun u hu => hturn u hu ▸ hlt⟩
        · rw [← hwait m] at hi
          exact .inl (hkeep _ hi)

/-! ## The calls -/

/-- The queues are what the links say. -/
theorem Tidy.queues_eq (ht : Tidy n s q) (ht' : Tidy n s q') : q = q' := by
  funext b
  by_cases hb : IsHead s b
  · exact (ht.queued_eq hb).symm.trans (ht'.queued_eq hb)
  · rw [ht.queues.heads b hb, ht'.queues.heads b hb]

/-- What is known of the state after a call. -/
def Turned (n i cpu : Nat) (d : Option Nat) (clock : Nat → Prop) (turn : Option Nat) (s : State)
    (q : Node → List Nat) (s' : State) : Prop :=
  ∃ q', Queues s' q' ∧ (∀ h, (q' h).length < rounds) ∧ Advances n i cpu d clock turn s q s' q'

/-- The state after a call without a switch. -/
theorem Tidy.turned (ht : Tidy n s' q') (h : Stays i d clock s q s' q') :
    Turned n i cpu d clock none s q s' :=
  ⟨q', ht.queues, fun _ => ht.length_lt, h.advances⟩

/-- The running task is in no queue. -/
theorem Settled.current_ne (hs : Settled n s q) (hcpu : cpu < n)
    (hcur : s.coreRunning cpu = .task j) (hi : i ∈ q h) : j ≠ i := by
  rintro rfl
  exact (hs.current hcpu hcur).2.2 h hi

/-- The running task enters a queue, and the core is rescheduled. -/
theorem block_advances {t : State} (hs : Settled n s q) (hcpu : cpu < n)
    (hcur : s.coreRunning cpu = .task j) (hi : ∃ b, i ∈ q b) (hlinks : t.links = s.links)
    (hpcb : ∀ m, m ≠ j → t.pcb m = s.pcb m) (hpid : (t.pcb j).pid = (s.pcb j).pid)
    (hst : (t.pcb j).status = .blocked) (hcore : t.coreRunning = s.coreRunning)
    (hproc : t.processId = s.processId) (hlocks : t.mlocks = s.mlocks) (hh : IsHead s h)
    (hne : h ≠ .ready) (hlive : ∀ m, h = .wait m → Live s m) (hclock : clock now)
    {f : State → State} (hf : ∀ l, ∀ x, x = { t with links := l } → (f x).links = l ∧
      (f x).pcb = x.pcb ∧ (f x).coreRunning = x.coreRunning)
    (hok : (addQueue h j t >>= fun x => doScheduler cpu now (f x)) = .ok s') :
    Turned n i cpu d clock none s q s' := by
  obtain ⟨b, hib⟩ := hi
  have hji := hs.current_ne hcpu hcur hib
  obtain ⟨l, hadd, ht, _, _⟩ :=
    hs.block hcpu hcur hlinks hpcb hpid hst hcore hproc hlocks hh hne hlive
  rw [hadd] at hok
  obtain ⟨hfl, hfp, hfc⟩ := hf l _ rfl
  have ht' : Tidy n (f { t with links := l }) (Function.update q h (q h ++ [j])) :=
    ht.congr hfl (fun m => by rw [hfp]) hfc
  have hsame : ReadsSame i s (f { t with links := l }) := by
    unfold ReadsSame
    rw [hfp]
    change (t.pcb i).mask = _ ∧ (t.pcb i).wakeupTime = _
    rw [hpcb i hji.symm]
    exact ⟨rfl, rfl⟩
  obtain ⟨q', hq', hlen, hadv⟩ := doScheduler_advances (i := i) (d := d) ht' hcpu
    (blocked_core hcur (hfc.trans hcore) (by rw [hfp]; exact hst)) hclock
    no_turn hok
  exact ⟨q', hq', hlen, (Stays.enter hsame).trans_advances hadv⟩

/-- `do_block` with its switch. -/
theorem doBlock_advances (hs : Settled n s q) (hcpu : cpu < n) (hcur : s.coreRunning cpu = .task j)
    (hi : ∃ b, i ∈ q b) (hh : IsHead s h) (hne : h ≠ .ready) (hlive : ∀ m, h = .wait m → Live s m)
    (hclock : clock now) (hok : doBlock cpu j h now s = .ok s') :
    Turned n i cpu d clock none s q s' :=
  block_advances (t := setStatus j .blocked s) (f := id) hs hcpu hcur hi rfl
    (fun _ hm => setStatus_pcb_of_ne hm _) (setStatus_pid j j _) (setStatus_pcb_self j _) rfl rfl rfl
    hh hne hlive hclock (fun _ _ hx => by subst hx; exact ⟨rfl, rfl, rfl⟩) hok

/-- `do_sleep` with its switch. -/
theorem doSleep_advances {sleepTime now' : Nat} (hs : Settled n s q) (hcpu : cpu < n)
    (hcur : s.coreRunning cpu = .task j) (hi : ∃ b, i ∈ q b) (hclock : clock now')
    (hok : doSleep cpu sleepTime now now' s = .ok s') : Turned n i cpu d clock none s q s' := by
  have hself := asleep_pcb_self (s := s) (i := j) ((sleepTime + now) % 2 ^ 64)
  unfold doSleep current at hok
  rw [hcur] at hok
  refine block_advances (t := asleep j ((sleepTime + now) % 2 ^ 64) s) (h := .sleep) (f := id) hs
    hcpu hcur hi rfl (fun _ hm => asleep_pcb_of_ne hm) ?_ ?_ rfl rfl rfl trivial (by simp)
    (fun _ hm => by cases hm) hclock (fun _ _ hx => by subst hx; exact ⟨rfl, rfl, rfl⟩) hok
  · rw [hself]
    exact setStatus_pid j j .blocked
  · rw [hself]
    exact setStatus_pcb_self j .blocked

/-- A task that has ended gives up its core. -/
theorem leave_advances (ht : Tidy n s q) (hcpu : cpu < n) (hcur : s.coreRunning cpu = .task j)
    (hrun : (s.pcb j).status = .running) (hwait : q (.wait j) = []) (hji : j ≠ i)
    (hclock : clock now) (hok : doScheduler cpu now (setStatus j .exited s) = .ok s') :
    Turned n i cpu d clock none s q s' := by
  have hj := ht.core cpu j hcpu hcur
  have hdrop := ht.drop hj (live_of_running hrun).2 hwait
  rw [ht.queues.del_free (ht.running hj hrun).2] at hdrop
  have hpid : ∀ m, (setStatus j .exited s).coreRunning cpu = .task m →
      ((setStatus j .exited s).pcb m).status = .running →
      ((setStatus j .exited s).pcb m).pid ≠ 0 := by
    intro m hm hst
    cases hcur.symm.trans hm
    rw [setStatus_pcb_self] at hst
    cases hst
  obtain ⟨q', hq', hlen, hadv⟩ := doScheduler_advances (i := i) (d := d) hdrop hcpu
    hpid hclock no_turn hok
  exact ⟨q', hq', hlen, (Stays.leave hji (setStatus_reads j i .exited)).trans_advances hadv⟩

/-- `do_exit` with its switch. -/
theorem doExit_advances (hs : Settled n s q) (hcpu : cpu < n) (hcur : s.coreRunning cpu = .task j)
    (hi : i ∈ q h) (hclock : clock now) (hok : doExit cpu now s = .ok s') :
    Turned n i cpu (some j) clock none s q s' := by
  obtain ⟨hj, hrun, _⟩ := hs.current hcpu hcur
  unfold doExit at hok
  rw [current_eq hcur] at hok
  change drainLoop Links.prev j rounds s >>= _ = _ at hok
  obtain ⟨s₁, hdrain, hrest⟩ := exists_of_bind_ok hok
  obtain ⟨q₁, ht₁, hstays, hnil⟩ := drainLoop_stays hj rounds s q hs.toTidy
    (live_of_running hrun).2 hdrain
  obtain ⟨_, _, hdrain', _, hw, _⟩ := drainLoop_prev hs.toTidy hj (live_of_running hrun).2
  cases hdrain'.symm.trans hdrain
  have hcur₁ : s₁.coreRunning cpu = .task j := by
    rw [hw.core]
    exact hcur
  have hrun₁ := (hw.running j).mpr hrun
  rw [ht₁.queues.del_free (ht₁.running hj hrun₁).2] at hrest
  obtain ⟨q', hq', hlen, hadv⟩ := leave_advances (d := some j) ht₁ hcpu hcur₁ hrun₁ hnil
    (hs.current_ne hcpu hcur hi) hclock hrest
  exact ⟨q', hq', hlen, hstays.trans_advances hadv⟩

/-- `do_waitpid`, in each of its branches. -/
theorem doWaitpid_advances {pid r : Int} (hs : Settled n s q) (hp : Pids s) (hcpu : cpu < n)
    (hcur : s.coreRunning cpu = .task j) (hi : ∃ b, i ∈ q b) (hclock : clock now)
    (hok : doWaitpid cpu pid now s = .ok (r, s')) : Turned n i cpu d clock none s q s' := by
  unfold doWaitpid at hok
  cases hfind : findPid pid s with
  | none =>
      rw [hfind] at hok
      cases hok
      exact hs.toTidy.turned .refl
  | some v =>
      rw [hfind] at hok
      simp only at hok
      by_cases hl : (s.pcb v).status ≠ .exited ∧ (s.pcb v).status ≠ .available
      · rw [if_pos hl, current_eq hcur] at hok
        change blockOn (.wait v) j s >>= _ = _ at hok
        obtain ⟨s₁, hblock, hrest⟩ := exists_of_bind_ok hok
        obtain ⟨s₂, hsched, hret⟩ := exists_of_bind_ok hrest
        cases hret
        have hv : v < numMaxTask := by
          have := (findFrom_some hfind).2.1
          omega
        refine doBlock_advances (h := .wait v) hs hcpu hcur hi ⟨hv, hl.2⟩ (by simp)
          (fun m hm => by cases hm; exact hl) hclock ?_
        unfold doBlock
        rw [hblock]
        exact hsched
      · rw [if_neg hl] at hok
        obtain ⟨s₂, hsched, hret⟩ := exists_of_bind_ok hok
        cases hret
        refine doScheduler_advances hs.toTidy hcpu ?_ hclock no_turn hsched
        intro m hm hst
        have hpos := hp.live m (hs.core cpu m hcpu hm) (live_of_running hst)
        omega

/-- The victim is another task. -/
theorem doKill_advances {pid r : Int} (hs : Settled n s q) (hcpu : cpu < n)
    (hown : ∀ v, findPid pid s = some v → ∀ c, c < n → s.coreRunning c = .task v → c = cpu)
    (hspare : findPid pid s ≠ some i) (hclock : clock now)
    (hok : doKill cpu pid now s = .ok (r, s')) :
    Turned n i cpu (findPid pid s) clock none s q s' := by
  unfold doKill at hok
  cases hfind : findPid pid s with
  | none =>
      rw [hfind] at hok
      cases hok
      exact hs.toTidy.turned .refl
  | some v =>
      have hvi : v ≠ i := fun heq => hspare (heq ▸ hfind)
      have hv := (findPid_lt hfind).1
      rw [hfind] at hok
      change drainLoop Links.next v rounds s >>= _ = _ at hok
      obtain ⟨s₁, hdrain, hok₁⟩ := exists_of_bind_ok hok
      have hav : (s.pcb v).status ≠ .available := by
        intro hcon
        rw [drainLoop_available hs.toTidy hcon] at hdrain
        cases hdrain
      obtain ⟨q₁, ht₁, hstays₁, hnil₁⟩ := drainLoop_stays hv rounds s q hs.toTidy hav hdrain
      obtain ⟨_, _, hdrain', _, hw₁, _⟩ := drainLoop_next hs.toTidy hv hav
      cases hdrain'.symm.trans hdrain
      -- the pid is overwritten
      have hpcb : ∀ m, ((setPcb v { s₁.pcb v with pid := 0 } s₁).pcb m).status =
          (s₁.pcb m).status := by
        intro m
        change (Function.update s₁.pcb v _ m).status = _
        by_cases hm : m = v
        · rw [hm, Function.update_self]
        · rw [Function.update_of_ne hm]
      have ht₂ : Tidy n (setPcb v { s₁.pcb v with pid := 0 } s₁) q₁ := ht₁.congr rfl hpcb rfl
      have hstays₂ : Stays i (some v) clock s₁ q₁ (setPcb v { s₁.pcb v with pid := 0 } s₁) q₁ := by
        refine .of_same ?_
        unfold ReadsSame
        change (Function.update s₁.pcb v _ i).mask = _ ∧ (Function.update s₁.pcb v _ i).wakeupTime = _
        rw [Function.update_of_ne hvi.symm]
        exact ⟨rfl, rfl⟩
      change releasePcbLock pid lockNum 0 (setPcb v { s₁.pcb v with pid := 0 } s₁) >>= _ = _ at hok₁
      obtain ⟨s₃, hrel, hend⟩ := exists_of_bind_ok hok₁
      obtain ⟨q₃, ht₃, hstays₃⟩ := releasePcbLock_stays lockNum 0 _ q₁ ht₂ hrel
      obtain ⟨_, q', hrel', ht', hw₃, _⟩ := releasePcbLock_spec pid lockNum 0 _ q₁ ht₂ (by simp)
      cases hrel'.symm.trans hrel
      cases ht'.queues_eq ht₃
      have hnil₃ : q₃ (.wait v) = [] := by
        rw [hw₃.queues _ (lock_not_mem_queues (by simp) (by simp))]
        exact hnil₁
      have hstays := (hstays₁.trans hstays₂).trans hstays₃
      have hdropped : (s₃.pcb v).status ≠ .available →
          Turned n i cpu (some v) clock none s q (setStatus v .exited (delQueue v s₃)) := by
        intro hne
        exact (ht₃.drop hv hne hnil₃).turned
          (hstays.trans (.leave hvi (setStatus_reads (s := delQueue v s₃) v i .exited)))
      change endVictim cpu v now s₃ = _ at hend
      unfold endVictim at hend
      cases hst : (s₃.pcb v).status with
      | blocked =>
          rw [hst] at hend
          cases hend
          exact hdropped (by rw [hst]; simp)
      | ready =>
          rw [hst] at hend
          cases hend
          exact hdropped (by rw [hst]; simp)
      | running =>
          rw [hst] at hend
          obtain ⟨s₄, hsched, hret⟩ := exists_of_bind_ok hend
          cases hret
          obtain ⟨⟨c, hc, hcv⟩, _⟩ := ht₃.running hv hst
          have hcore : s₃.coreRunning = s.coreRunning := hw₃.core.trans hw₁.core
          cases hown v hfind c hc (hcore ▸ hcv)
          obtain ⟨q₄, hq₄, hlen, hadv⟩ := leave_advances (d := some v) ht₃ hcpu hcv hst hnil₃ hvi
            hclock hsched
          exact ⟨q₄, hq₄, hlen, hstays.trans_advances hadv⟩
      | exited =>
          rw [hst] at hend
          cases hend
          exact ht₃.turned hstays
      | available =>
          rw [hst] at hend
          cases hend
          exact ht₃.turned hstays

/-- A switch alone. -/
theorem schedule_advances (ht : Tidy n s q) (hp : Pids s) (hcpu : cpu < n) (hclock : clock now)
    (hturn : ∀ t, turn = some t → t = now)
    (hok : doScheduler cpu now s = .ok s') : Turned n i cpu d clock turn s q s' := by
  refine doScheduler_advances ht hcpu ?_ hclock hturn hok
  intro m hm hst
  have hpos := hp.live m (ht.core cpu m hcpu hm) (live_of_running hst)
  omega

/-- Waking the sleepers leaves the others in line. -/
theorem checkSleeping_stays (ht : Tidy n s q) (hclock : clock now)
    (hok : checkSleeping now s = .ok s') : ∃ q', Tidy n s' q' ∧ Stays i d clock s q s' q' := by
  obtain ⟨s₁, q₁, hcheck, ht₁, hready, hsleep, hother, hrd⟩ :=
    checkLoop_exact now rounds [] (q .sleep) s q ht rfl ht.length_lt
  unfold checkSleeping at hok
  rw [ht.queues.next_head (h := .sleep) trivial] at hok
  cases hcheck.symm.trans hok
  refine ⟨q₁, ht₁, fun ahead hline => ?_, fun hi => ?_, fun j hi => ?_, ?_⟩
  · rw [hready]
    exact ⟨ahead, hline.prefix (List.prefix_append _ _), le_refl _⟩
  · by_cases hw : (s.pcb i).wakeupTime ≤ now
    · refine .inr ⟨?_, now, hclock, hw⟩
      rw [hready]
      exact List.mem_append_right _ (List.mem_filter.mpr ⟨hi, decide_eq_true hw⟩)
    · refine .inl ?_
      rw [hsleep]
      exact List.mem_filter.mpr ⟨hi, by simp [isDue, hw]⟩
  · rw [hother _ (by simp) (by simp)]
    exact .inl hi
  · unfold ReadsSame
    rw [hrd.pcb i]
    exact ⟨rfl, rfl⟩

/-- The timer interrupt wakes the sleepers and switches. -/
theorem handleIrqTimer_advances {now' : Nat} (hs : Settled n s q) (hp : Pids s) (hcpu : cpu < n)
    (hclock : clock now ∧ clock now') (hok : handleIrqTimer cpu now now' s = .ok s') :
    Turned n i cpu d clock (some now') s q s' := by
  unfold handleIrqTimer at hok
  obtain ⟨s₁, hcheck, hsched⟩ := exists_of_bind_ok hok
  obtain ⟨q₁, ht₁, hstays⟩ := checkSleeping_stays hs.toTidy hclock.1 hcheck
  obtain ⟨_, _, hcheck', _, hw⟩ := checkSleeping_spec hs.toTidy now
  cases hcheck'.symm.trans hcheck
  obtain ⟨q', hq', hlen, hadv⟩ := schedule_advances ht₁ (hw.toQuiet.pids hp) hcpu hclock.2
    (fun _ ht => (Option.some.inj ht).symm) hsched
  exact ⟨q', hq', hlen, hstays.trans_advances hadv⟩

/-- `do_barrier_wait`, the last task at the barrier or not. -/
theorem doBarrierWait_advances (hs : Settled n s q) (hp : Pids s) (hcpu : cpu < n)
    (hcur : s.coreRunning cpu = .task j) (hi : ∃ b, i ∈ q b) (hclock : clock now)
    (hok : doBarrierWait cpu k now s = .ok s') : Turned n i cpu d clock none s q s' := by
  unfold doBarrierWait at hok
  rw [current_eq hcur] at hok
  change (if barrierNum ≤ k then _ else _) = _ at hok
  by_cases hk : barrierNum ≤ k
  · rw [if_pos hk] at hok
    cases hok
  rw [if_neg hk] at hok
  have hk' : k < barrierNum := Nat.not_le.mp hk
  by_cases hone : (s.barriers k).num = 1
  · rw [if_pos hone] at hok
    obtain ⟨s₁, hloop, hsched⟩ := exists_of_bind_ok hok
    obtain ⟨q₁, ht₁, hstays⟩ := barrierLoop_stays hk' rounds s q hs.toTidy hloop
    obtain ⟨_, _, hloop', ⟨_, hw, _⟩, _⟩ := barrierLoop_spec hk' rounds s q hs.toTidy
      hs.toTidy.length_lt
    cases hloop'.symm.trans hloop
    have hp₁ := hw.toQuiet.pids hp
    obtain ⟨q', hq', hlen, hadv⟩ := schedule_advances ht₁ ⟨hp₁.fresh, hp₁.live, hp₁.available⟩
      hcpu hclock no_turn hsched
    exact ⟨q', hq', hlen, hstays.trans_advances hadv⟩
  · rw [if_neg hone] at hok
    by_cases hmin : (s.barriers k).num = -2 ^ 31
    · rw [if_pos hmin] at hok
      cases hok
    rw [if_neg hmin] at hok
    exact block_advances (t := setStatus j .blocked s) (h := .barrier k)
      (f := fun x => setBarrier k { x.barriers k with num := (x.barriers k).num - 1 } x) hs hcpu hcur
      hi rfl (fun _ hm => setStatus_pcb_of_ne hm _) (setStatus_pid j j _) (setStatus_pcb_self j _)
      rfl rfl rfl hk' (by simp) (fun _ hm => by cases hm) hclock
      (fun _ _ hx => by subst hx; exact ⟨rfl, rfl, rfl⟩) hok

/-- A new task joins the ready queue behind the others. -/
theorem newTask_advances {pid : Int} {mask : Nat} (hs : Settled n s q) (hi : i ∈ q h)
    (hslot : freeSlot s = some j) (hok : newTask j pid mask s = .ok s') :
    Turned n i cpu d clock none s q s' := by
  have hj := freeSlot_some hslot
  have hij : i ≠ j := by
    rintro rfl
    exact hj.2 (hs.toTidy.live_of_mem hi)
  obtain ⟨s₁, hnew, hs₁, hpcb, _⟩ := newTask_spec hs hj.1 hj.2 pid mask
  cases hnew.symm.trans hok
  refine hs₁.toTidy.turned (.enter ?_)
  unfold ReadsSame
  rw [hpcb, Function.update_of_ne hij]
  exact ⟨rfl, rfl⟩

/-- **One kernel entry.** -/
theorem handle_advances {c : Call} (hs : Settled n s q) (hp : Pids s) (hcpu : cpu < n)
    (hk : KillsOwn n cpu s c) (hspare : ends cpu s c ≠ some i) (hi : i ∈ q h)
    (hok : step cpu c s = .ok s') :
    Turned n i cpu (ends cpu s c) c.clock c.turn s q s' := by
  have hsame : ∀ t : State, t.links = s.links → t.pcb = s.pcb → t.coreRunning = s.coreRunning →
      Turned n i cpu (ends cpu s c) c.clock none s q t := by
    intro t hlinks hpcb hcore
    refine (hs.toTidy.congr hlinks (fun m => by rw [hpcb]) hcore).turned (.of_same ?_)
    unfold ReadsSame
    rw [hpcb]
    exact ⟨rfl, rfl⟩
  have hlegal := legal_of_ok hs.toTidy hok
  unfold step at hok
  by_cases hidle : s.coreRunning cpu = .idle ∧ c.fromIdle = false
  · rw [if_pos hidle] at hok
    cases hok
  rw [if_neg hidle] at hok
  have hcur : c.fromIdle = false → ∃ j, s.coreRunning cpu = .task j := by
    intro hidle'
    cases hcur : s.coreRunning cpu with
    | idle => exact absurd ⟨hcur, hidle'⟩ hidle
    | task j => exact ⟨j, rfl⟩
  cases c with
  | exec =>
      obtain ⟨j, hj⟩ := hcur rfl
      change doExec cpu s >>= _ = _ at hok
      obtain ⟨⟨pid, s₁⟩, hexec, hret⟩ := exists_of_bind_ok hok
      cases hret
      obtain ⟨slot, hslot⟩ := Option.ne_none_iff_exists'.mp hlegal.2.1
      have hs₁ : Settled n { s with processId := s.processId + 1 } q :=
        ⟨hs.toTidy.congr rfl (fun _ => rfl) rfl, hs.busy⟩
      unfold doExec at hexec
      rw [current_eq hj] at hexec
      simp only [bind, Except.bind, hslot, if_neg hlegal.2.2] at hexec
      cases hnew : newTask slot s.processId (s.pcb j).mask
          { s with processId := s.processId + 1 } with
      | error e =>
          rw [hnew] at hexec
          cases hexec
      | ok t =>
          rw [hnew] at hexec
          cases hexec
          have hturned : Turned n i cpu none Call.exec.clock none
              { s with processId := s.processId + 1 } q s' := newTask_advances hs₁ hi hslot hnew
          have hnext : Stays i none Call.exec.clock s q { s with processId := s.processId + 1 } q :=
            .of_same ⟨rfl, rfl⟩
          obtain ⟨q', hq', hlen, hadv⟩ := hturned
          exact ⟨q', hq', hlen, hnext.trans_advances hadv⟩
  | threadCreate =>
      obtain ⟨j, hj⟩ := hcur rfl
      change doThreadCreate cpu s = _ at hok
      obtain ⟨slot, hslot⟩ := Option.ne_none_iff_exists'.mp hlegal.2
      unfold doThreadCreate at hok
      rw [current_eq hj] at hok
      simp only [bind, Except.bind, hslot] at hok
      exact newTask_advances hs hi hslot hok
  | exit now =>
      obtain ⟨j, hj⟩ := hcur rfl
      have hends : ends cpu s (.exit now) = some j := by
        unfold ends
        simp only [hj]
      rw [hends]
      exact doExit_advances hs hcpu hj hi rfl hok
  | kill pid now =>
      change doKill cpu pid now s >>= _ = _ at hok
      obtain ⟨⟨r, s₁⟩, hkill, hret⟩ := exists_of_bind_ok hok
      cases hret
      exact doKill_advances hs hcpu hk hspare rfl hkill
  | waitpid pid now =>
      obtain ⟨j, hj⟩ := hcur rfl
      change doWaitpid cpu pid now s >>= _ = _ at hok
      obtain ⟨⟨r, s₁⟩, hwait, hret⟩ := exists_of_bind_ok hok
      cases hret
      exact doWaitpid_advances hs hp hcpu hj ⟨h, hi⟩ rfl hwait
  | sleep t now now' =>
      obtain ⟨j, hj⟩ := hcur rfl
      exact doSleep_advances hs hcpu hj ⟨h, hi⟩ rfl hok
  | schedule now =>
      exact schedule_advances hs.toTidy hp hcpu rfl (fun _ ht => (Option.some.inj ht).symm) hok
  | tick now now' => exact handleIrqTimer_advances hs hp hcpu ⟨.inl rfl, .inr rfl⟩ hok
  | lockInit key =>
      obtain ⟨k, t, hinit, ht⟩ := doMutexLockInit_spec key hlegal.2
      change doMutexLockInit key s >>= _ = _ at hok
      rw [hinit] at hok
      cases hok
      rcases ht with rfl | rfl
      · exact hsame _ rfl rfl rfl
      · exact hsame _ rfl rfl rfl
  | acquire k now =>
      obtain ⟨j, hj⟩ := hcur rfl
      have hk' : k < lockNum := hlegal.2
      change doMutexLockAcquire cpu k now s = _ at hok
      unfold doMutexLockAcquire at hok
      rw [current_eq hj] at hok
      change (if lockNum ≤ k then _ else _) = _ at hok
      rw [if_neg (Nat.not_le.mpr hk')] at hok
      by_cases hfree : (s.mlocks k).locked = false
      · rw [if_pos hfree] at hok
        cases hok
        exact hsame _ rfl rfl rfl
      · rw [if_neg hfree] at hok
        exact doBlock_advances (h := .lock k) hs hcpu hj ⟨h, hi⟩ hk' (by simp)
          (fun _ hm => by cases hm) rfl hok
  | release k =>
      obtain ⟨q', ht', hstays⟩ := doMutexLockRelease_stays hs.toTidy hok
      exact ht'.turned hstays
  | barrierInit key goal =>
      cases hok
      unfold doBarrierInit
      split
      · exact hsame _ rfl rfl rfl
      · exact hsame _ rfl rfl rfl
  | barrierWait k now =>
      obtain ⟨j, hj⟩ := hcur rfl
      exact doBarrierWait_advances hs hp hcpu hj ⟨h, hi⟩ rfl hok
  | barrierDestroy k =>
      change doBarrierDestroy k s = _ at hok
      unfold doBarrierDestroy at hok
      rw [if_neg (Nat.not_le.mpr hlegal.2)] at hok
      by_cases hkey : (s.barriers k).key = -1
      · rw [if_pos hkey] at hok
        cases hok
        exact hsame _ rfl rfl rfl
      · rw [if_neg hkey] at hok
        cases hok
        exact hsame _ rfl rfl rfl

/-- The rings hold one family of queues. -/
theorem Tidy.queues_unique (ht : Tidy n s q) (hq' : Queues s q')
    (hlen : ∀ h, (q' h).length < rounds) : q' = q := by
  funext b
  by_cases hb : IsHead s b
  · exact (hq'.queued_eq hb (hlen b)).symm.trans (ht.queued_eq hb)
  · rw [hq'.heads b hb, ht.queues.heads b hb]

/-- The task that a call ends has exited. -/
theorem exited_of_ends {c : Call} (hs : Settled n s q) (hp : Pids s) (hcpu : cpu < n)
    (hk : KillsOwn n cpu s c) (hends : ends cpu s c = some j) (hok : step cpu c s = .ok s') :
    (s'.pcb j).status = .exited := by
  have hlegal := legal_of_ok hs.toTidy hok
  unfold step at hok
  by_cases hidle : s.coreRunning cpu = .idle ∧ c.fromIdle = false
  · rw [if_pos hidle] at hok
    cases hok
  rw [if_neg hidle] at hok
  unfold ends at hends
  cases c with
  | exit now =>
      cases hcur : s.coreRunning cpu with
      | idle =>
          rw [hcur] at hends
          cases hends
      | task m =>
          rw [hcur] at hends
          cases hends
          obtain ⟨_, _, hexit, _, he, _⟩ := doExit_spec hs hcpu hcur now
          cases hexit.symm.trans hok
          exact he.self
  | kill pid now =>
      obtain ⟨r, t, _, hkill, _, he⟩ := doKill_spec hs hcpu hends (findPid_lt hends).1
        (hp.inUse hlegal.2 hends) (hk j hends) now
      change doKill cpu pid now s >>= _ = _ at hok
      rw [hkill] at hok
      cases hok
      exact he.self
  | _ => cases hends

end Advances

end Sched
