import OslabRiscv.Sched.Calls

/-!
# The contents of the queues

`Queues s q` reads the links of a state as a sequence of PCBs for every queue.
The list operations append to these sequences, erase from them and test them;
from here on nothing looks at a link again.
-/

namespace Sched

open IntrusiveList

/-- The heads of the queues that have been initialised. -/
def IsHead (s : State) : Node → Prop
  | .ready | .sleep => True
  | .lock k => k < lockNum
  | .barrier k => k < barrierNum
  | .cond k => k < conditionNum
  | .wait i => i < numMaxTask ∧ (s.pcb i).status ≠ .available
  | .task _ => False

/-- The queue of every head `h` holds the PCBs `q h`, and no other node is
linked. -/
structure Queues (s : State) (q : Node → List Nat) : Prop where
  rings : Rings s.links (IsHead s) (fun h => (q h).map Node.task)
  heads : ∀ h, ¬ IsHead s h → q h = []

/-- The PCBs met by following the forward links from a node. -/
def walk (l : Links Node) : Nat → Option Node → List Nat
  | 0, _ => []
  | fuel + 1, some (.task i) => i :: walk l fuel (l.next (.task i))
  | _ + 1, _ => []

/-- The PCBs linked in a queue, in their order. -/
def queued (h : Node) (s : State) : List Nat := walk s.links rounds (s.links.next h)

theorem task_injective : Function.Injective Node.task := fun _ _ h => Node.task.inj h

section Read

variable {s : State} {q : Node → List Nat} {h : Node} {i : Nat}

/-- A queue that holds a PCB has been initialised. -/
theorem Queues.isHead (hq : Queues s q) (hi : i ∈ q h) : IsHead s h := by
  by_contra hh
  rw [hq.heads h hh] at hi
  cases hi

/-- No PCB is twice in a queue. -/
theorem Queues.nodup (hq : Queues s q) : (q h).Nodup := by
  by_cases hh : IsHead s h
  · exact (hq.rings.nodup hh).of_map
  · rw [hq.heads h hh]
    exact List.nodup_nil

/-- A PCB is in one queue at most. -/
theorem Queues.unique (hq : Queues s q) {b : Node} (hi : i ∈ q h) (hb : i ∈ q b) : h = b :=
  hq.rings.unique (hq.isHead hi) (hq.isHead hb) (List.mem_map_of_mem hi) (List.mem_map_of_mem hb)

/-- What the forward link of a queue leads to. -/
def firstNode (h : Node) : List Nat → Node
  | [] => h
  | i :: _ => .task i

/-- The first node behind a head. -/
theorem head_map_task (h : Node) (l : List Nat) :
    (l.map Node.task).head?.getD h = firstNode h l := by
  cases l <;> rfl

/-- The head leads to the first PCB. -/
theorem Queues.next_head (hq : Queues s q) (hh : IsHead s h) :
    s.links.next h = some (firstNode h (q h)) := by
  rw [(hq.rings.ring h hh).next_head, head_map_task]

/-- `list_is_empty` is right. -/
theorem Queues.listIsEmpty (hq : Queues s q) (hh : IsHead s h) :
    listIsEmpty h s.links = true ↔ q h = [] := by
  unfold Sched.listIsEmpty
  rw [decide_eq_true_iff, (hq.rings.ring h hh).next_head_eq_self, List.map_eq_nil_iff]

/-- The forward link of a PCB in the middle of a queue. -/
theorem Queues.next_task (hq : Queues s q) {l₁ l₂ : List Nat} (heq : q h = l₁ ++ i :: l₂) :
    s.links.next (.task i) = some (firstNode h l₂) := by
  have hi : i ∈ q h := by
    rw [heq]
    exact List.mem_append_right _ List.mem_cons_self
  have hring := (hq.rings.ring h (hq.isHead hi)).2
  simp only [heq, List.map_append, List.map_cons] at hring
  rw [((segment_append).mp hring).2.next_eq, head_map_task]

/-- The first PCB of a queue is not its head, so the two ends agree on whether
it is empty. -/
theorem Queues.prev_head (hq : Queues s q) (hh : IsHead s h) (hne : q h ≠ []) :
    ∃ j ∈ q h, s.links.prev h = some (.task j) := by
  have hprev := (hq.rings.ring h hh).prev_head
  unfold lastOf at hprev
  rw [List.getLast?_map, List.getLast?_eq_some_getLast hne] at hprev
  exact ⟨_, List.getLast_mem hne, hprev⟩

/-- Following the links from inside a queue meets the rest of it, by induction on the rest. -/
theorem walk_eq (hq : Queues s q) {fuel : Nat} {l₁ l₂ : List Nat} (heq : q h = l₁ ++ l₂)
    (hh : IsHead s h) (hfuel : l₂.length < fuel) :
    walk s.links fuel (some (firstNode h l₂)) = l₂ := by
  induction fuel generalizing l₁ l₂ with
  | zero => omega
  | succ fuel ih =>
      cases l₂ with
      | nil =>
          unfold firstNode
          cases h with
          | task i => exact hh.elim
          | _ => rfl
      | cons i l₂ =>
          have hnext : walk s.links (fuel + 1) (some (firstNode h (i :: l₂))) =
              i :: walk s.links fuel (s.links.next (.task i)) := rfl
          rw [hnext, hq.next_task heq]
          rw [List.append_cons] at heq
          rw [ih heq (by simpa using hfuel)]

/-- The list read off a queue is the one the ring holds. -/
theorem Queues.queued_eq (hq : Queues s q) (hh : IsHead s h) (hlen : (q h).length < rounds) :
    queued h s = q h := by
  unfold queued
  rw [hq.next_head hh]
  have hsplit : q h = [] ++ q h := rfl
  exact walk_eq hq hsplit hh hlen

end Read

/-! ## The list operations -/

section Edits

variable {s : State} {q : Node → List Nat} {h : Node} {i : Nat}

/-- Queues of PCBs and of nodes are updated alike. -/
theorem map_update (q : Node → List Nat) (h : Node) (l : List Nat) :
    (fun b => (Function.update q h l b).map Node.task) =
      Function.update (fun b => (q b).map Node.task) h (l.map Node.task) := by
  funext b
  by_cases hb : b = h
  · subst hb
    rw [Function.update_self, Function.update_self]
  · rw [Function.update_of_ne hb, Function.update_of_ne hb]

/-- A head that is not initialised has no queue. -/
theorem heads_update {l : List Nat} (hq : Queues s q) (hh : IsHead s h) (b : Node)
    (hb : ¬ IsHead s b) : Function.update q h l b = [] := by
  have hbh : b ≠ h := fun heq => hb (heq ▸ hh)
  rw [Function.update_of_ne hbh]
  exact hq.heads b hb

/-- A PCB is no head. -/
theorem not_isHead_task : ¬ IsHead s (.task i) := id

/-- `add_queue` appends a PCB that is in no queue. -/
theorem Queues.add (hq : Queues s q) (hh : IsHead s h) (hi : ∀ b, i ∉ q b) :
    ∃ l, addQueue h i s = .ok { s with links := l } ∧
      Queues { s with links := l } (Function.update q h (q h ++ [i])) := by
  have hfree : ∀ b, IsHead s b → Node.task i ∉ (q b).map Node.task := by
    intro b _ hmem
    exact hi b ((List.mem_map_of_injective task_injective).mp hmem)
  have hr := hq.rings.append hh not_isHead_task hfree
  refine ⟨spliceIn (lastOf h ((q h).map Node.task)) (.task i) h s.links, ?_, ?_,
    fun b hb => heads_update hq hh b hb⟩
  · unfold addQueue listAddTail
    rw [(hq.rings.ring h hh).prev_head]
    rfl
  · rw [map_update, List.map_append]
    exact hr

/-- `del_queue` takes a PCB out of the queue it is in. -/
theorem Queues.del (hq : Queues s q) (hi : i ∈ q h) :
    Queues (delQueue i s) (Function.update q h ((q h).erase i)) := by
  have hh := hq.isHead hi
  obtain ⟨p, n, hp, hn, hr⟩ := hq.rings.erase hh (List.mem_map_of_mem hi)
  refine ⟨?_, fun b hb => heads_update hq hh b hb⟩
  have hlinks : (delQueue i s).links = spliceOut p (.task i) n s.links := by
    change listDel (.task i) s.links = _
    unfold listDel
    rw [hp, hn]
    rfl
  rw [hlinks, map_update, List.map_erase task_injective]
  exact hr

/-- A PCB in no queue is left alone by `del_queue`. -/
theorem Queues.del_free (hq : Queues s q) (hi : ∀ b, i ∉ q b) : delQueue i s = s := by
  have hfree : ∀ b, IsHead s b → Node.task i ∉ (q b).map Node.task := by
    intro b _ hmem
    exact hi b ((List.mem_map_of_injective task_injective).mp hmem)
  have hlinks : listDel (.task i) s.links = s.links := by
    unfold listDel
    rw [(hq.rings.detached (.task i) not_isHead_task hfree).2]
  unfold delQueue
  rw [hlinks]

/-- `get_head` returns the first PCB and takes it out. -/
theorem Queues.getHead (hq : Queues s q) {l : List Nat} (heq : q h = i :: l) :
    getHead h s = .ok (i, delQueue i s) ∧ Queues (delQueue i s) (Function.update q h l) := by
  have hi : i ∈ q h := by
    rw [heq]
    exact List.mem_cons_self
  refine ⟨?_, ?_⟩
  · unfold Sched.getHead
    rw [hq.next_head (hq.isHead hi), heq]
    rfl
  · have hdel := hq.del hi
    rw [heq, List.erase_cons_head] at hdel
    exact hdel

/-- The queues do not depend on the rest of the state, except that a PCB once
initialised has a wait list. -/
theorem Queues.congr {s' : State} (hq : Queues s q) (hlinks : s'.links = s.links)
    (hst : ∀ j, j < numMaxTask →
      ((s'.pcb j).status = .available ↔ (s.pcb j).status = .available)) :
    Queues s' q := by
  have hH : ∀ b, IsHead s' b ↔ IsHead s b := by
    intro b
    cases b with
    | wait j =>
        constructor
        · intro hb
          exact ⟨hb.1, fun hav => hb.2 ((hst j hb.1).mpr hav)⟩
        · intro hb
          exact ⟨hb.1, fun hav => hb.2 ((hst j hb.1).mp hav)⟩
    | _ => exact Iff.rfl
  refine ⟨?_, ?_⟩
  · rw [hlinks]
    exact hq.rings.congr hH (fun _ _ => rfl)
  · intro b hb
    exact hq.heads b (fun hcon => hb ((hH b).mpr hcon))

/-- Initialising the head of an empty queue changes nothing. -/
theorem Queues.initListHead_same (hq : Queues s q) (hh : IsHead s h) (hempty : q h = []) :
    initListHead h s.links = s.links := by
  have hring := hq.rings.ring _ hh
  simp only [hempty, List.map_nil] at hring
  unfold initListHead Links.setNext Links.setPrev
  rw [← show s.links.next h = some h from hring.next_head, Function.update_eq_self,
    show s.links.next h = s.links.prev h from hring.next_head.trans hring.prev_head.symm,
    Function.update_eq_self]

/-- A fresh or ended PCB gets an empty wait list. -/
theorem Queues.initWait {s' : State} (hq : Queues s q) (hi : i < numMaxTask)
    (hempty : q (.wait i) = []) (hlinks : s'.links = initListHead (.wait i) s.links)
    (hst : ∀ j, j ≠ i → ((s'.pcb j).status = .available ↔ (s.pcb j).status = .available))
    (hlive : (s'.pcb i).status ≠ .available) : Queues s' q := by
  have hmap : Function.update (fun b => (q b).map Node.task) (.wait i) [] =
      fun b => (q b).map Node.task := by
    funext b
    by_cases hb : b = .wait i
    · subst hb
      rw [Function.update_self, hempty]
      rfl
    · rw [Function.update_of_ne hb]
  have hH : ∀ b, IsHead s' b ↔ IsHead s b ∨ b = .wait i := by
    intro b
    cases b with
    | wait j =>
        by_cases hji : j = i
        · subst hji
          exact ⟨fun _ => Or.inr rfl, fun _ => ⟨hi, hlive⟩⟩
        · constructor
          · intro hb
            exact Or.inl ⟨hb.1, fun hav => hb.2 ((hst j hji).mpr hav)⟩
          · intro hb
            rcases hb with hb | hb
            · exact ⟨hb.1, fun hav => hb.2 ((hst j hji).mp hav)⟩
            · exact absurd (Node.wait.inj hb) hji
    | _ => exact ⟨fun hb => Or.inl hb, fun hb => hb.resolve_right (by simp)⟩
  refine ⟨?_, fun b hb => hq.heads b (fun hcon => hb ((hH b).mpr (Or.inl hcon)))⟩
  rw [hlinks]
  by_cases hw : IsHead s (.wait i)
  · -- the list was empty already
    have hsame := hq.initListHead_same hw hempty
    rw [hsame]
    refine hq.rings.congr (fun b => ⟨fun hb => ?_, fun hb => (hH b).mpr (Or.inl hb)⟩)
      (fun _ _ => rfl)
    rcases (hH b).mp hb with hb | hb
    · exact hb
    · exact hb ▸ hw
  · have hnew := hq.rings.newHead hw (fun b _ hmem => by simp at hmem)
    rw [hmap] at hnew
    exact hnew.congr hH (fun _ _ => rfl)

end Edits

end Sched
