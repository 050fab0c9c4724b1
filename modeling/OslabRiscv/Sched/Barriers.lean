import OslabRiscv.Sched.Cores

/-!
# Barriers

A barrier counts how many tasks it still waits for; its goal is nowhere stored,
and the last task to arrive restores it by counting those it wakes.  As long as
no waiting task is killed, and a barrier is created only where no task is left
waiting from before, the count and the number of waiting tasks add up to the
goal.
-/

namespace Sched

open IntrusiveList Outcome

/-- The goals of the barriers in use, which the kernel does not keep. -/
def goals (c : Call) (s : State) (g : Nat → Option Int) : Nat → Option Int :=
  match c with
  | .barrierInit _ n =>
    match findFrom (fun k => (s.barriers k).key = -1) barrierNum 0 with
    | none => g
    | some k => Function.update g k (if 1 ≤ n then some n else none)
  | .barrierDestroy k => Function.update g k none
  | _ => g

/-- No task is killed that waits at a barrier, and the slot of a new barrier has
an empty queue. -/
def KeepsWaiters (s : State) : Call → Prop
  | .kill pid _ => ∀ i, findPid pid s = some i → ∀ k, k < barrierNum → i ∉ queued (.barrier k) s
  | .barrierInit _ _ => ∀ k, findFrom (fun k => (s.barriers k).key = -1) barrierNum 0 = some k →
      queued (.barrier k) s = []
  | _ => True

/-- The count and the waiting tasks add up to the goal. -/
def Agree (p : State × (Nat → Option Int)) : Prop :=
  ∀ k n, k < barrierNum → p.2 k = some n →
    (p.1.barriers k).num + (queued (.barrier k) p.1).length = n

/-- Tasks leave a barrier together, when one task was missing and it arrives; the
count is the goal again. -/
def ReleasedTogether (c : Call) (p p' : State × (Nat → Option Int)) : Prop :=
  ∀ k n, k < barrierNum → p.2 k = some n →
    (∃ j ∈ queued (.barrier k) p.1, j ∉ queued (.barrier k) p'.1) →
    (∃ now, c = .barrierWait k now) ∧ ((queued (.barrier k) p.1).length : Int) = n - 1 ∧
      (∀ j ∈ queued (.barrier k) p.1, Live p.1 j) ∧ queued (.barrier k) p'.1 = [] ∧
      (p'.1.barriers k).num = n

/-- What a kernel entry does to the barriers. -/
inductive BarrierStep (s : State) (q : Node → List Nat) (s' : State) (q' : Node → List Nat) :
    Call → Prop
  | other {c : Call} (hb : s'.barriers = s.barriers)
      (hq : ∀ k, q' (.barrier k) = q (.barrier k)) (hinit : ∀ key n, c ≠ .barrierInit key n)
      (hdestroy : ∀ k, c ≠ .barrierDestroy k) : BarrierStep s q s' q' c
  | kill {pid : Int} {now i : Nat} (hfind : findPid pid s = some i)
      (hb : s'.barriers = s.barriers) (hq : ∀ k, q' (.barrier k) = (q (.barrier k)).erase i) :
      BarrierStep s q s' q' (.kill pid now)
  | init {key n : Int} (hs : s' = (doBarrierInit key n s).2) (hq : q' = q) :
      BarrierStep s q s' q' (.barrierInit key n)
  | wait {k now i : Nat} (hk : k < barrierNum)
      (hother : ∀ m, m ≠ k → q' (.barrier m) = q (.barrier m) ∧ s'.barriers m = s.barriers m)
      (hself : ((s.barriers k).num = 1 ∧ q' (.barrier k) = [] ∧
          (s'.barriers k).num = 1 + (q (.barrier k)).length) ∨
        ((s.barriers k).num ≠ 1 ∧ q' (.barrier k) = q (.barrier k) ++ [i] ∧
          (s'.barriers k).num = (s.barriers k).num - 1)) :
      BarrierStep s q s' q' (.barrierWait k now)
  | destroy {k : Nat} (hother : ∀ m, m ≠ k → s'.barriers m = s.barriers m) (hq : q' = q) :
      BarrierStep s q s' q' (.barrierDestroy k)

section

variable {s s' : State} {q q' : Node → List Nat} {c : Call}

/-- A barrier whose queue does not change releases nobody. -/
theorem not_left {n : Nat} (ht : Tidy n s q) (ht' : Tidy n s' q') {k : Nat} (hk : k < barrierNum)
    (hq : ∀ j ∈ q (.barrier k), j ∈ q' (.barrier k)) :
    ¬ ∃ j ∈ queued (.barrier k) s, j ∉ queued (.barrier k) s' := by
  intro hcon
  obtain ⟨j, hj, hnot⟩ := hcon
  rw [ht.queued_eq (h := .barrier k) hk] at hj
  rw [ht'.queued_eq (h := .barrier k) hk] at hnot
  exact hnot (hq j hj)

/-- A barrier that a call does not touch keeps its sum. -/
theorem sum_kept {cores k : Nat} {n : Int} (hs : Settled cores s q) (hs' : Settled cores s' q')
    (hk : k < barrierNum) (ha : (s.barriers k).num + (queued (.barrier k) s).length = n)
    (hb : s'.barriers k = s.barriers k) (hq : q' (.barrier k) = q (.barrier k)) :
    (s'.barriers k).num + (queued (.barrier k) s').length = n := by
  rw [hb, hs'.toTidy.queued_eq (h := .barrier k) hk, hq,
    ← hs.toTidy.queued_eq (h := .barrier k) hk]
  exact ha

/-- What `do_barrier_init` does with the slot it finds, and with the goals. -/
theorem goals_init (key n : Int) (g : Nat → Option Int) {j : Nat}
    (hf : findFrom (fun k => (s.barriers k).key = -1) barrierNum 0 = some j) :
    (doBarrierInit key n s).2 = setBarrier j ⟨key, n⟩ s ∧
      goals (.barrierInit key n) s g = Function.update g j (if 1 ≤ n then some n else none) := by
  constructor
  · unfold doBarrierInit
    rw [hf]
  · change (match findFrom (fun k => (s.barriers k).key = -1) barrierNum 0 with
      | none => g
      | some k => Function.update g k (if 1 ≤ n then some n else none)) = _
    rw [hf]

/-- Without a free slot it does nothing. -/
theorem goals_init_none (key n : Int) (g : Nat → Option Int)
    (hf : findFrom (fun k => (s.barriers k).key = -1) barrierNum 0 = none) :
    (doBarrierInit key n s).2 = s ∧ goals (.barrierInit key n) s g = g := by
  constructor
  · unfold doBarrierInit
    rw [hf]
  · change (match findFrom (fun k => (s.barriers k).key = -1) barrierNum 0 with
      | none => g
      | some k => Function.update g k (if 1 ≤ n then some n else none)) = g
    rw [hf]

/-- A new barrier waits for as many tasks as its goal says, and none is there yet. -/
theorem init_agree {cores : Nat} {key n : Int} {g : Nat → Option Int} (hs : Settled cores s q)
    (hs' : Settled cores (doBarrierInit key n s).2 q) (hc : KeepsWaiters s (.barrierInit key n))
    (ha : Agree (s, g)) : Agree ((doBarrierInit key n s).2, goals (.barrierInit key n) s g) := by
  intro k m hk hgk
  cases hf : findFrom (fun k => (s.barriers k).key = -1) barrierNum 0 with
  | none =>
      obtain ⟨hstate, hgoal⟩ := goals_init_none key n g hf
      rw [hgoal] at hgk
      exact sum_kept hs hs' hk (ha k m hk hgk) (by rw [hstate]) rfl
  | some j =>
      obtain ⟨hstate, hgoal⟩ := goals_init key n g hf
      rw [hgoal] at hgk
      by_cases hkj : k = j
      · subst hkj
        change Function.update g k _ k = some m at hgk
        rw [Function.update_self] at hgk
        have hnm : n = m := by
          by_cases hn : 1 ≤ n
          · rw [if_pos hn] at hgk
            exact Option.some.inj hgk
          · rw [if_neg hn] at hgk
            cases hgk
        have hnum : ((doBarrierInit key n s).2.barriers k).num = n := by
          rw [hstate]
          change (Function.update s.barriers k _ k).num = n
          rw [Function.update_self]
        have hempty := hc k hf
        rw [hs.toTidy.queued_eq (h := .barrier k) hk] at hempty
        change ((doBarrierInit key n s).2.barriers k).num + _ = m
        rw [hnum, hs'.toTidy.queued_eq (h := .barrier k) hk, hempty]
        simpa using hnm
      · change Function.update g j _ k = some m at hgk
        rw [Function.update_of_ne hkj] at hgk
        refine sum_kept hs hs' hk (ha k m hk hgk) ?_ rfl
        rw [hstate]
        exact Function.update_of_ne hkj _ _

section Arrival

variable {cores k i : Nat} {g : Nat → Option Int}

/-- A task that arrives is counted; the last one lets the others go and counts them back. -/
theorem arrival_agree (hs : Settled cores s q) (hs' : Settled cores s' q') (ha : Agree (s, g))
    (hother : ∀ m, m ≠ k → q' (.barrier m) = q (.barrier m) ∧ s'.barriers m = s.barriers m)
    (hself : ((s.barriers k).num = 1 ∧ q' (.barrier k) = [] ∧
        (s'.barriers k).num = 1 + (q (.barrier k)).length) ∨
      ((s.barriers k).num ≠ 1 ∧ q' (.barrier k) = q (.barrier k) ++ [i] ∧
        (s'.barriers k).num = (s.barriers k).num - 1)) : Agree (s', g) := by
  intro m n hm hgm
  by_cases hmk : m = k
  · subst hmk
    have hold := ha m n hm hgm
    change (s.barriers m).num + _ = n at hold
    rw [hs.toTidy.queued_eq (h := .barrier m) hm] at hold
    change (s'.barriers m).num + _ = n
    rw [hs'.toTidy.queued_eq (h := .barrier m) hm]
    rcases hself with ⟨hone, hq, hnum⟩ | ⟨_, hq, hnum⟩
    · rw [hnum, hq, List.length_nil]
      push_cast
      omega
    · rw [hnum, hq, List.length_append, List.length_singleton]
      push_cast
      omega
  · exact sum_kept hs hs' hm (ha m n hm hgm) (hother m hmk).2 (hother m hmk).1

/-- Who leaves a barrier leaves with all others, as the last task arrives. -/
theorem arrival_releases (now : Nat) (hs : Settled cores s q) (hs' : Settled cores s' q')
    (ha : Agree (s, g))
    (hother : ∀ m, m ≠ k → q' (.barrier m) = q (.barrier m) ∧ s'.barriers m = s.barriers m)
    (hself : ((s.barriers k).num = 1 ∧ q' (.barrier k) = [] ∧
        (s'.barriers k).num = 1 + (q (.barrier k)).length) ∨
      ((s.barriers k).num ≠ 1 ∧ q' (.barrier k) = q (.barrier k) ++ [i] ∧
        (s'.barriers k).num = (s.barriers k).num - 1)) :
    ReleasedTogether (.barrierWait k now) (s, g) (s', g) := by
  have ht := hs.toTidy
  have ht' := hs'.toTidy
  intro m n hm hgm hleft
  by_cases hmk : m = k
  · subst hmk
    have hold := ha m n hm hgm
    change (s.barriers m).num + _ = n at hold
    rw [ht.queued_eq (h := .barrier m) hm] at hold
    change (∃ j ∈ queued (.barrier m) s, j ∉ queued (.barrier m) s') at hleft
    change _ ∧ ((queued (.barrier m) s).length : Int) = n - 1 ∧
      (∀ j ∈ queued (.barrier m) s, Live s j) ∧ queued (.barrier m) s' = [] ∧
      (s'.barriers m).num = n
    rw [ht.queued_eq (h := .barrier m) hm, ht'.queued_eq (h := .barrier m) hm]
    rcases hself with ⟨hone, hq, hnum⟩ | ⟨_, hq, _⟩
    · refine ⟨⟨now, rfl⟩, by omega, fun j hj => ht.live_of_mem hj, hq, by omega⟩
    · refine absurd hleft (not_left ht ht' hm (fun j hj => ?_))
      rw [hq]
      exact List.mem_append_left _ hj
  · refine absurd hleft (not_left ht ht' hm (fun j hj => ?_))
    rw [(hother m hmk).1]
    exact hj

end Arrival

/-- **One call.** -/
theorem BarrierStep.agree {cores : Nat} {g : Nat → Option Int} (hl : BarrierStep s q s' q' c)
    (hs : Settled cores s q) (hs' : Settled cores s' q') (hc : KeepsWaiters s c) (ha : Agree (s, g)) :
    Agree (s', goals c s g) ∧ ReleasedTogether c (s, g) (s', goals c s g) := by
  have hstay : ∀ k, k < barrierNum → q' (.barrier k) = q (.barrier k) →
      ¬ ∃ j ∈ queued (.barrier k) s, j ∉ queued (.barrier k) s' := by
    intro k hk hq
    exact not_left hs.toTidy hs'.toTidy hk (fun j hj => by rw [hq]; exact hj)
  cases hl with
  | other hb hq hinit hdestroy =>
      have hg : goals c s g = g := by
        cases c with
        | barrierInit key n => exact absurd rfl (hinit key n)
        | barrierDestroy k => exact absurd rfl (hdestroy k)
        | _ => rfl
      rw [hg]
      refine ⟨fun k n hk hgk => sum_kept hs hs' hk (ha k n hk hgk) (by rw [hb]) (hq k), ?_⟩
      intro k n hk _ hleft
      exact absurd hleft (hstay k hk (hq k))
  | @kill pid now i hfind hb hq =>
      -- the victim waits at no barrier
      have hsame : ∀ k, k < barrierNum → q' (.barrier k) = q (.barrier k) := by
        intro k hk
        have hnot := hc i hfind k hk
        rw [hs.toTidy.queued_eq (h := .barrier k) hk] at hnot
        rw [hq k, List.erase_of_not_mem hnot]
      refine ⟨fun k n hk hgk => sum_kept hs hs' hk (ha k n hk hgk) (by rw [hb]) (hsame k hk), ?_⟩
      intro k n hk _ hleft
      exact absurd hleft (hstay k hk (hsame k hk))
  | @init key n hset hq =>
      subst hset
      subst hq
      exact ⟨init_agree hs hs' hc ha, fun k m hk _ hleft => absurd hleft (hstay k hk rfl)⟩
  | @wait k now i hk hother hself =>
      exact ⟨arrival_agree hs hs' ha hother hself, arrival_releases now hs hs' ha hother hself⟩
  | @destroy k hother hq =>
      subst hq
      refine ⟨?_, fun m n hm _ hleft => absurd hleft (hstay m hm rfl)⟩
      intro m n hm hgm
      by_cases hmk : m = k
      · subst hmk
        change Function.update g m none m = some n at hgm
        rw [Function.update_self] at hgm
        cases hgm
      · change Function.update g k none m = some n at hgm
        rw [Function.update_of_ne hmk] at hgm
        exact sum_kept hs hs' hm (ha m n hm hgm) (hother m hmk) rfl

end

/-- The call is made on one of the cores, hits no task that another core runs, and keeps the
tasks that wait. -/
def BarrierOk (cores : Nat) (p : State × (Nat → Option Int)) (e : Nat × Call) : Prop :=
  (e.1 < cores ∧ KillsOwn cores e.1 p.1 e.2) ∧ KeepsWaiters p.1 e.2

/-- What is kept along a run. -/
def Counted (cores : Nat) (p : State × (Nat → Option Int)) : Prop :=
  (∃ q, Settled cores p.1 q ∧ Pids p.1) ∧ Agree p

/-- On a single core no task runs on another one. -/
theorem barrierOk_single {p : State × (Nat → Option Int)} {c : Call} :
    BarrierOk 1 p (0, c) ↔ KeepsWaiters p.1 c :=
  ⟨fun h => h.2, fun h => ⟨⟨by omega, killsOwn_single p.1 c⟩, h⟩⟩

instance KeepsWaiters.decidable (s : State) : ∀ c, Decidable (KeepsWaiters s c)
  | .kill pid _ => (inferInstance : Decidable (∀ i, findPid pid s = some i →
      ∀ k, k < barrierNum → i ∉ queued (.barrier k) s))
  | .barrierInit _ _ => (inferInstance : Decidable (∀ k,
      findFrom (fun k => (s.barriers k).key = -1) barrierNum 0 = some k →
        queued (.barrier k) s = []))
  | .exec | .threadCreate | .exit _ | .waitpid _ _ | .sleep _ _ _ | .schedule _ | .tick _ _
  | .lockInit _ | .acquire _ _ | .release _ | .barrierWait _ _ | .barrierDestroy _ => instDecidableTrue

instance BarrierOk.decidable (cores : Nat) (p : State × (Nat → Option Int)) (e : Nat × Call) :
    Decidable (BarrierOk cores p e) :=
  inferInstanceAs (Decidable ((_ ∧ _) ∧ _))

end Sched
