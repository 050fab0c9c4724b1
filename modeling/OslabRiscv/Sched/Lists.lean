import OslabRiscv.Sched.Queue

/-!
# The list operations as operations on sequences

`list.h` knows nothing of what its nodes are embedded in: the scheduler, the locks and
the mailboxes all use the same operations.  Here they are on nodes of any kind, with
`get_head` of `sched.c`, whose `list_entry` is a map from nodes to what they are
embedded in.  A pointer that is followed without being set stops the operation.

`lists_refine` says what they do to the sequences of a heap of rings.  The queues of
PCBs are these operations on the kernel's own nodes (`addQueue_eq`, `getHead_eq`).
-/

namespace Lists

open IntrusiveList

variable {ν π : Type} [DecidableEq ν]

/-- `__list_add`. -/
def listAdd (prev node next : ν) (l : Links ν) : Links ν :=
  let l := l.setNext node (some next)
  let l := l.setPrev node (some prev)
  let l := l.setNext prev (some node)
  l.setPrev next (some node)

/-- `_list_add_tail`. -/
def listAddTail (node head : ν) (l : Links ν) : Option (Links ν) :=
  match l.prev head with
  | some p => some (listAdd p node head l)
  | none => none

/-- `__list_del`. -/
def listDelBetween (prev next : ν) (l : Links ν) : Links ν :=
  (l.setNext prev (some next)).setPrev next (some prev)

/-- `list_del`. -/
def listDel (node : ν) (l : Links ν) : Links ν :=
  match l.prev node, l.next node with
  | some p, some n => ((listDelBetween p n l).setPrev node none).setNext node none
  | _, _ => l

/-- `list_is_empty`. -/
def listIsEmpty (head : ν) (l : Links ν) : Bool := l.next head = some head

/-- `get_head`, which looks at nothing but the link. -/
def getHead (listEntry : ν → π) (head : ν) (l : Links ν) : Option (π × Links ν) :=
  match l.next head with
  | some list => some (listEntry list, listDel list l)
  | none => none

variable {l : Links ν} {H : ν → Prop} {q : ν → List ν} {head node x : ν} {rest : List ν}

/-- A node whose links are null. -/
def Detached (l : Links ν) (node : ν) : Prop := l.next node = none ∧ l.prev node = none

/-- The rings of the other heads are linked as they were. -/
def OthersKept (H : ν → Prop) (q : ν → List ν) (head : ν) (l l' : Links ν) : Prop :=
  ∀ b, H b → b ≠ head → ∀ y ∈ b :: q b, l'.next y = l.next y ∧ l'.prev y = l.prev y

/-- `list_add_tail` appends a detached node, and leaves the other rings. -/
theorem listAddTail_appends (hr : Rings l H q) (hh : H head) (hn : Detached l node) :
    ∃ l', listAddTail node head l = some l' ∧
      Rings l' H (Function.update q head (q head ++ [node])) ∧ OthersKept H q head l l' := by
  obtain ⟨hnode, hfree⟩ := hr.detached_iff.mp hn
  refine ⟨spliceIn (lastOf head (q head)) node head l, ?_, hr.append hh hnode hfree, ?_⟩
  · unfold listAddTail
    rw [(hr.ring head hh).prev_head]
    rfl
  · intro b hb hne y hy
    exact hr.append_others hh hnode hfree hb hne hy

/-- `list_del` removes a node of a ring, and leaves the others. -/
theorem listDel_removes (hr : Rings l H q) (hh : H head) (hn : node ∈ q head) :
    Rings (listDel node l) H (Function.update q head ((q head).erase node)) ∧
      Detached (listDel node l) node ∧ OthersKept H q head l (listDel node l) := by
  obtain ⟨p, n, hp, hnx, hrings⟩ := hr.erase hh hn
  have hdel : listDel node l = spliceOut p node n l := by
    unfold listDel
    rw [hp, hnx]
    rfl
  rw [hdel]
  refine ⟨hrings, spliceOut_self, ?_⟩
  intro b hb hne y hy
  exact hr.erase_others hh hn hp hnx hb hne hy

/-- On a detached node it does nothing. -/
theorem listDel_detached (hn : Detached l node) : listDel node l = l := by
  unfold listDel
  rw [hn.2]

/-- `get_head` takes the first node. -/
theorem getHead_takes (listEntry : ν → π) (hr : Rings l H q) (hh : H head)
    (hq : q head = x :: rest) :
    ∃ l', getHead listEntry head l = some (listEntry x, l') ∧
      Rings l' H (Function.update q head rest) ∧ Detached l' x ∧ OthersKept H q head l l' := by
  have hx : x ∈ q head := hq ▸ List.mem_cons_self
  obtain ⟨hrings, hdet, hothers⟩ := listDel_removes hr hh hx
  rw [hq, List.erase_cons_head] at hrings
  refine ⟨listDel x l, ?_, hrings, hdet, hothers⟩
  unfold getHead
  rw [(hr.ring head hh).next_head, hq]
  rfl

/-- `list_is_empty` tells an empty ring. -/
theorem listIsEmpty_iff (hr : Rings l H q) (hh : H head) :
    listIsEmpty head l = true ↔ q head = [] := by
  unfold listIsEmpty
  rw [decide_eq_true_iff]
  exact (hr.ring head hh).next_head_eq_self

/-- **The list operations refine sequences.**  The heap is any one of disjoint rings, of
any length, with all other nodes detached. -/
theorem lists_refine (listEntry : ν → π) (hr : Rings l H q) :
    (∀ head node, H head → Detached l node → ∃ l', listAddTail node head l = some l' ∧
      Rings l' H (Function.update q head (q head ++ [node])) ∧ OthersKept H q head l l') ∧
    (∀ head node, H head → node ∈ q head →
      Rings (listDel node l) H (Function.update q head ((q head).erase node)) ∧
        Detached (listDel node l) node ∧ OthersKept H q head l (listDel node l)) ∧
    (∀ node, Detached l node → listDel node l = l) ∧
    (∀ head x rest, H head → q head = x :: rest →
      ∃ l', getHead listEntry head l = some (listEntry x, l') ∧
        Rings l' H (Function.update q head rest) ∧ Detached l' x ∧ OthersKept H q head l l') ∧
    ∀ head, H head → (listIsEmpty head l = true ↔ q head = []) :=
  ⟨fun _ _ hh hn => listAddTail_appends hr hh hn, fun _ _ hh hn => listDel_removes hr hh hn,
    fun _ hn => listDel_detached hn, fun _ _ _ hh hq => getHead_takes listEntry hr hh hq,
    fun _ hh => listIsEmpty_iff hr hh⟩

/-- The heads `0`, with three nodes, and `1`, with two. -/
def twoRings : Links Nat where
  next
    | 0 => some 5 | 5 => some 6 | 6 => some 7 | 7 => some 0
    | 1 => some 8 | 8 => some 9 | 9 => some 1
    | _ => none
  prev
    | 0 => some 7 | 7 => some 6 | 6 => some 5 | 5 => some 0
    | 1 => some 9 | 9 => some 8 | 8 => some 1
    | _ => none

def twoQueues : Nat → List Nat
  | 0 => [5, 6, 7]
  | 1 => [8, 9]
  | _ => []

theorem twoRings_rings : Rings twoRings (· < 2) twoQueues where
  ring a ha := by
    have hcases : a = 0 ∨ a = 1 := by omega
    rcases hcases with rfl | rfl
    · exact ⟨by decide, ⟨rfl, rfl⟩, ⟨rfl, rfl⟩, ⟨rfl, rfl⟩, rfl, rfl⟩
    · exact ⟨by decide, ⟨rfl, rfl⟩, ⟨rfl, rfl⟩, rfl, rfl⟩
  disjoint a b ha hb x hx hx' := by
    have hall : ∀ a < 2, ∀ b < 2, ∀ x ∈ a :: twoQueues a, x ∈ b :: twoQueues b → a = b := by decide
    exact hall a ha b hb x hx hx'
  detached x hx hno := by
    have h₀ := hno 0 (by decide)
    have h₁ := hno 1 (by decide)
    simp only [twoQueues, List.mem_cons, List.not_mem_nil, or_false, not_or] at h₀ h₁
    unfold twoRings
    constructor <;> dsimp only <;> split <;> first | rfl | omega

/-- A node goes from the middle of one ring to the end of the other, whose first node is taken. -/
theorem lists_refine_move : ∃ l l', listAddTail 6 1 (listDel 6 twoRings) = some l ∧
    getHead id 1 l = some (8, l') ∧ Detached l' 8 ∧ Rings l' (· < 2)
      (Function.update (Function.update twoQueues 0 [5, 7]) 1 [9, 6]) := by
  obtain ⟨hdel, hdet, -⟩ := (lists_refine id twoRings_rings).2.1 0 6 (by decide) (by decide)
  obtain ⟨l, hl, hadd, -⟩ := (lists_refine id hdel).1 1 6 (by decide) hdet
  obtain ⟨l', hl', hget, hdet', -⟩ := (lists_refine id hadd).2.2.2.1 1 8 [9, 6] (by decide) rfl
  refine ⟨l, l', hl, hl', hdet', ?_⟩
  rw [Function.update_idem] at hget
  exact hget

end Lists

namespace Sched

open IntrusiveList

/-! ## The queues of PCBs -/

/-- The kernel's `list_del` is the one over any nodes. -/
theorem listDel_eq (node : Node) (l : Links Node) : listDel node l = Lists.listDel node l := by
  unfold listDel Lists.listDel
  cases l.prev node <;> cases l.next node <;> rfl

/-- Putting a PCB into a queue is putting its node `list` behind the others. -/
theorem addQueue_eq (head : Node) (i : Nat) (s : State) :
    addQueue head i s =
      match Lists.listAddTail (.task i) head s.links with
      | some l => .ok { s with links := l }
      | none => .error .undefined := by
  unfold addQueue listAddTail Lists.listAddTail
  cases s.links.prev head <;> rfl

/-- The PCB a node is embedded in, where it is the node `list` of one. -/
def listEntry : Node → Option Nat
  | .task i => some i
  | _ => none

/-- Taking the first PCB out of a queue is taking the first node, which has to be one of
a PCB. -/
theorem getHead_eq (head : Node) (s : State) :
    getHead head s =
      match Lists.getHead listEntry head s.links with
      | some (some i, l) => .ok (i, { s with links := l })
      | _ => .error .undefined := by
  unfold getHead Lists.getHead
  simp only [← listDel_eq]
  cases s.links.next head with
  | none => rfl
  | some node => cases node <;> rfl

end Sched
