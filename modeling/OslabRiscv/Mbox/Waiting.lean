import OslabRiscv.Mbox.Mailbox

/-!
# Who waits at a mailbox

Between two scheduling points the lock is free, so that nobody ever queues up
for it, and the other two queues hold the blocked senders and the blocked
receivers.  `Stretch` says what a process can do from one scheduling point to
the next.
-/

namespace Mbox

open Outcome RingBuffer

variable {π : Type} {s s' t : State π} {p : π} {c : Request} {k : Which}

/-- The queue that is set. -/
@[simp] theorem queue_setQueue (b : Mailbox π) (k : Which) (q : List π) :
    (b.setQueue k q).queue k = q := by
  cases k <;> rfl

theorem queue_setQueue_of_ne (b : Mailbox π) {k j : Which} (h : j ≠ k) (q : List π) :
    (b.setQueue k q).queue j = b.queue j := by
  cases k <;> cases j <;> first | rfl | exact absurd rfl h

/-- A queue holds the blocked processes of its kind, each once. -/
structure Tidy (s : State π) : Prop where
  members : ∀ p k, p ∈ s.box.queue k ↔
    ∃ d, s.proc p = some d ∧ d.request.queue = k ∧ d.ready = false
  nodup : ∀ k, (s.box.queue k).Nodup
  spot : ∀ p d, s.proc p = some d → d.spot = .wait

/-- The process is in no queue: outside, or woken. -/
def Free (s : State π) (p : π) : Prop :=
  ∀ d, s.proc p = some d → d.ready = true

/-- A free process is in neither queue. -/
theorem Free.not_mem (hf : Free s p) (ht : Tidy s) (k : Which) : p ∉ s.box.queue k := by
  intro hmem
  obtain ⟨d, hd, _, hr⟩ := (ht.members p k).mp hmem
  rw [hf d hd] at hr
  cases hr

/-- Nobody queues up for the lock. -/
theorem Tidy.lock_nil (ht : Tidy s) : s.box.lockQueue = [] := by
  apply List.eq_nil_iff_forall_not_mem.mpr
  intro p hp
  obtain ⟨d, _, hq, _⟩ := (ht.members p .lock).mp hp
  cases hd : d.request <;> rw [hd] at hq <;> cases hq

/-- What is not about the queues or the processes does not matter. -/
theorem Tidy.congr (ht : Tidy s) (hq : ∀ k, t.box.queue k = s.box.queue k)
    (hp : t.proc = s.proc) : Tidy t where
  members p k := by
    rw [hq, hp]
    exact ht.members p k
  nodup k := by
    rw [hq]
    exact ht.nodup k
  spot p d hd := by
    rw [hp] at hd
    exact ht.spot p d hd

/-! ## Waking -/

/-- Processes of one queue were woken. -/
structure Wakes (k : Which) (s s' : State π) : Prop where
  box : s'.box = s.box.setQueue k (s'.box.queue k)
  log : s'.log = s.log
  proc : ∀ q, s'.proc q = s.proc q ∨ (q ∈ s.box.queue k ∧
    ∃ d, s.proc q = some d ∧ s'.proc q = some { d with ready := true })
  sub : ∀ q ∈ s'.box.queue k, q ∈ s.box.queue k
  tidy : Tidy s → Tidy s'

theorem Wakes.refl (k : Which) (s : State π) : Wakes k s s where
  box := by cases k <;> rfl
  log := rfl
  proc _ := .inl rfl
  sub _ h := h
  tidy h := h

theorem Wakes.trans (h : Wakes k s s') (h' : Wakes k s' t) : Wakes k s t where
  box := by
    rw [h'.box, h.box]
    cases k <;> rfl
  log := h'.log.trans h.log
  proc q := by
    rcases h'.proc q with h1 | ⟨hmem, d, hd, h1⟩
    · rw [h1]
      exact h.proc q
    · rcases h.proc q with h2 | ⟨hmem', d', hd', h2⟩
      · rw [h2] at hd
        exact .inr ⟨h.sub q hmem, d, hd, h1⟩
      · rw [h2] at hd
        cases hd
        exact .inr ⟨hmem', d', hd', h1⟩
  sub q hq := h.sub q (h'.sub q hq)
  tidy ht := h'.tidy (h.tidy ht)

/-- A woken process stays woken. -/
theorem Wakes.ready (h : Wakes k s s') {q : π} {d : Inside} (hd : s.proc q = some d)
    (hr : d.ready = true) : ∃ d', s'.proc q = some d' ∧ d'.ready = true := by
  rcases h.proc q with heq | ⟨_, e, _, he⟩
  · exact ⟨d, heq.trans hd, hr⟩
  · exact ⟨_, he, rfl⟩

/-- A free process stays free. -/
theorem Wakes.free (h : Wakes k s s') (hf : Free s p) : Free s' p := by
  intro d hd
  rcases h.proc p with heq | ⟨_, e, _, he⟩
  · exact hf d (heq.symm.trans hd)
  · rw [he] at hd
    cases hd
    rfl

/-- The lock and the number of users have no part in it. -/
theorem Wakes.setSides (h : Wakes k s s') (l : Bool) (u : Int) :
    Wakes k { s with box := { s.box with locked := l, userNum := u } }
      { s' with box := { s'.box with locked := l, userNum := u } } where
  box := by
    rw [h.box]
    cases k <;> rfl
  log := h.log
  proc q := by
    have := h.proc q
    cases k <;> exact this
  sub q hq := by
    have := h.sub q
    cases k <;> exact this hq
  tidy ht := (h.tidy (ht.congr (fun j => by cases j <;> rfl) rfl)).congr
    (fun j => by cases j <;> rfl) rfl

variable [DecidableEq π]

/-- Waking the first of a queue takes it out. -/
theorem Tidy.wakeFirst (ht : Tidy s) {rest : List π} (hq : s.box.queue k = p :: rest) :
    Tidy (markReady p { s with box := s.box.setQueue k rest }) := by
  have hnd : (p :: rest).Nodup := hq ▸ ht.nodup k
  obtain ⟨d, hd, hk, hr⟩ := (ht.members p k).mp (hq ▸ List.mem_cons_self)
  have hproc : (markReady p { s with box := s.box.setQueue k rest }).proc p =
      some { d with ready := true } := by
    simp [markReady, hd]
  have hother : ∀ q, q ≠ p →
      (markReady p { s with box := s.box.setQueue k rest }).proc q = s.proc q := by
    intro q hne
    exact Function.update_of_ne hne _ _
  refine ⟨fun q j => ?_, fun j => ?_, fun q e he => ?_⟩
  · change q ∈ (s.box.setQueue k rest).queue j ↔ _
    by_cases hqp : q = p
    · subst hqp
      rw [hproc]
      constructor
      · intro hmem
        by_cases hj : j = k
        · subst hj
          rw [queue_setQueue] at hmem
          exact absurd hmem (List.nodup_cons.mp hnd).1
        · rw [queue_setQueue_of_ne _ hj] at hmem
          obtain ⟨d', hd', hk', _⟩ := (ht.members q j).mp hmem
          rw [hd] at hd'
          cases hd'
          exact absurd (hk'.symm.trans hk) hj
      · intro h
        obtain ⟨e, he, _, her⟩ := h
        cases he
        cases her
    · rw [hother q hqp, ← ht.members q j]
      by_cases hj : j = k
      · subst hj
        rw [queue_setQueue, hq]
        simp [hqp]
      · rw [queue_setQueue_of_ne _ hj]
  · change ((s.box.setQueue k rest).queue j).Nodup
    by_cases hj : j = k
    · subst hj
      rw [queue_setQueue]
      exact (List.nodup_cons.mp hnd).2
    · rw [queue_setQueue_of_ne _ hj]
      exact ht.nodup j
  · by_cases hqp : q = p
    · subst hqp
      rw [hproc] at he
      cases he
      exact ht.spot q d hd
    · rw [hother q hqp] at he
      exact ht.spot q e he

/-- The first process of the queue is woken. -/
theorem unblockOne_wakes (ht : Tidy s) (k : Which) : Wakes k s (unblockOne k s) := by
  unfold unblockOne
  cases hq : s.box.queue k with
  | nil => exact .refl k s
  | cons p rest =>
      obtain ⟨d, hd, _⟩ := (ht.members p k).mp (hq ▸ List.mem_cons_self)
      refine ⟨?_, rfl, fun q => ?_, fun q hmem => ?_, fun _ => ht.wakeFirst hq⟩
      · change s.box.setQueue k rest = s.box.setQueue k ((s.box.setQueue k rest).queue k)
        rw [queue_setQueue]
      · by_cases hqp : q = p
        · subst hqp
          refine .inr ⟨hq ▸ List.mem_cons_self, d, hd, ?_⟩
          simp [markReady, hd]
        · exact .inl (Function.update_of_ne hqp _ _)
      · change q ∈ (s.box.setQueue k rest).queue k at hmem
        rw [queue_setQueue] at hmem
        rw [hq]
        exact List.mem_cons_of_mem _ hmem

/-- Where somebody waits, somebody is woken. -/
theorem unblockOne_ready (ht : Tidy s) (hne : s.box.queue k ≠ []) :
    ∃ q ∈ s.box.queue k, ∃ d, (unblockOne k s).proc q = some d ∧ d.ready = true := by
  unfold unblockOne
  cases hq : s.box.queue k with
  | nil => exact absurd hq hne
  | cons p rest =>
      obtain ⟨d, hd, _⟩ := (ht.members p k).mp (hq ▸ List.mem_cons_self)
      refine ⟨p, List.mem_cons_self, { d with ready := true }, ?_, rfl⟩
      simp [markReady, hd]

/-- Several are woken, by induction on their number. -/
theorem unblockLoop_wakes (k : Which) (n : Nat) (ht : Tidy s) : Wakes k s (unblockLoop k n s) := by
  induction n generalizing s with
  | zero => exact .refl k s
  | succ n ih =>
      have h := unblockOne_wakes ht k
      exact h.trans (ih (h.tidy ht))

/-- Of a queue that is not empty, a process is ready afterwards. -/
theorem unblockAll_ready (ht : Tidy s) (hne : s.box.queue k ≠ []) :
    ∃ q ∈ s.box.queue k, ∃ d, (unblockAll k s).proc q = some d ∧ d.ready = true := by
  unfold unblockAll
  cases hq : s.box.queue k with
  | nil => exact absurd hq hne
  | cons p rest =>
      obtain ⟨q, hmem, d, hd, hr⟩ := unblockOne_ready ht hne
      have hrest := unblockLoop_wakes k rest.length ((unblockOne_wakes ht k).tidy ht)
      obtain ⟨d', hd', hr'⟩ := hrest.ready hd hr
      exact ⟨q, hq ▸ hmem, d', hd', hr'⟩

/-- A process that waits joins the end of its queue. -/
theorem Tidy.suspend (ht : Tidy s) (hf : Free s p) (n : Nat) :
    Tidy (suspend p c.queue ⟨c, .wait, false, n⟩ s) := by
  have hself : (Mbox.suspend p c.queue ⟨c, .wait, false, n⟩ s).proc p =
      some ⟨c, .wait, false, n⟩ := Function.update_self _ _ _
  have hother : ∀ q, q ≠ p →
      (Mbox.suspend p c.queue ⟨c, .wait, false, n⟩ s).proc q = s.proc q := by
    intro q hne
    exact Function.update_of_ne hne _ _
  refine ⟨fun q j => ?_, fun j => ?_, fun q e he => ?_⟩
  · change q ∈ (s.box.setQueue c.queue (s.box.queue c.queue ++ [p])).queue j ↔ _
    by_cases hqp : q = p
    · subst hqp
      rw [hself]
      by_cases hj : j = c.queue
      · subst hj
        simp
      · rw [queue_setQueue_of_ne _ hj]
        constructor
        · intro hmem
          exact absurd hmem (hf.not_mem ht j)
        · intro h
          obtain ⟨e, he, hek, _⟩ := h
          cases he
          exact absurd hek.symm hj
    · rw [hother q hqp, ← ht.members q j]
      by_cases hj : j = c.queue
      · subst hj
        simp [hqp]
      · rw [queue_setQueue_of_ne _ hj]
  · change ((s.box.setQueue c.queue (s.box.queue c.queue ++ [p])).queue j).Nodup
    by_cases hj : j = c.queue
    · subst hj
      rw [queue_setQueue, ← List.concat_eq_append]
      exact (ht.nodup _).concat (hf.not_mem ht _)
    · rw [queue_setQueue_of_ne _ hj]
      exact ht.nodup j
  · by_cases hqp : q = p
    · subst hqp
      rw [hself] at he
      cases he
      rfl
    · rw [hother q hqp] at he
      exact ht.spot q e he

/-- A process in no queue may leave. -/
theorem Tidy.leave (ht : Tidy s) (hf : Free s p) (e : Event π) : Tidy (leave p e s) := by
  have hself : (Mbox.leave p e s).proc p = none := Function.update_self _ _ _
  have hother : ∀ q, q ≠ p → (Mbox.leave p e s).proc q = s.proc q := by
    intro q hne
    exact Function.update_of_ne hne _ _
  refine ⟨fun q j => ?_, ht.nodup, fun q d hd => ?_⟩
  · change q ∈ s.box.queue j ↔ _
    by_cases hqp : q = p
    · subst hqp
      rw [hself]
      simp [hf.not_mem ht j]
    · rw [hother q hqp]
      exact ht.members q j
  · by_cases hqp : q = p
    · subst hqp
      rw [hself] at hd
      cases hd
    · rw [hother q hqp] at hd
      exact ht.spot q d hd

/-! ## Copying -/

/-- What a call leaves of the mailbox besides the ring. -/
structure SameSides (b b' : Mailbox π) : Prop where
  valid : b'.valid = b.valid
  locked : b'.locked = b.locked
  queue : ∀ k, b'.queue k = b.queue k

/-- The bytes of all completed sends, in completion order. -/
def sentBytes : List (Event π) → List UInt8
  | [] => []
  | .sent _ msg _ :: es => msg ++ sentBytes es
  | _ :: es => sentBytes es

/-- The bytes of all completed receives, in completion order. -/
def receivedBytes : List (Event π) → List UInt8
  | [] => []
  | .received _ _ bytes :: es => bytes ++ receivedBytes es
  | _ :: es => receivedBytes es

/-- The ring of the mailbox against all bytes that were sent. -/
def Holding (b : Mailbox π) (l : List UInt8) : Prop :=
  Window maxMboxLength b.content b.head b.tail l

omit [DecidableEq π] in
theorem sentBytes_append (es es' : List (Event π)) :
    sentBytes (es ++ es') = sentBytes es ++ sentBytes es' := by
  induction es with
  | nil => rfl
  | cons e es ih =>
      cases e with
      | sent p msg n => simp [sentBytes, ih]
      | received p len bytes => exact ih
      | refused p => exact ih

omit [DecidableEq π] in
theorem receivedBytes_append (es es' : List (Event π)) :
    receivedBytes (es ++ es') = receivedBytes es ++ receivedBytes es' := by
  induction es with
  | nil => rfl
  | cons e es ih =>
      cases e with
      | sent p msg n => exact ih
      | received p len bytes => simp [receivedBytes, ih]
      | refused p => exact ih

omit [DecidableEq π] in
/-- The message is put in behind what was sent before, or the count of bytes
overflows. -/
theorem sendLoop_spec (msg : List UInt8) {b : Mailbox π} {l : List UInt8} (hb : Holding b l)
    (hroom : b.tail + msg.length ≤ b.head + maxMboxLength) (hmax : b.tail ≤ intMax) :
    Holds (fun _ => intMax < b.tail + msg.length)
      (fun b' => Holding b' (l ++ msg) ∧ SameSides b b' ∧ b'.head = b.head ∧ b'.tail ≤ intMax)
      (sendLoop msg b) := by
  induction msg generalizing b l with
  | nil =>
      refine ⟨?_, ⟨rfl, rfl, fun _ => rfl⟩, rfl, hmax⟩
      rw [List.append_nil]
      exact hb
  | cons a msg ih =>
      rw [List.length_cons] at hroom
      unfold sendLoop
      by_cases htop : b.tail = intMax
      · rw [if_pos htop]
        change intMax < b.tail + (msg.length + 1)
        omega
      rw [if_neg htop]
      have hput := hb.put (by omega) a
      have hrest := ih (b := { b with
        content := Function.update b.content (b.tail % maxMboxLength) a
        tail := b.tail + 1 }) hput (by change b.tail + 1 + msg.length ≤ b.head + maxMboxLength; omega)
        (by change b.tail + 1 ≤ intMax; omega)
      revert hrest
      cases sendLoop msg { b with
        content := Function.update b.content (b.tail % maxMboxLength) a
        tail := b.tail + 1 } with
      | ok b' =>
          intro hrest
          obtain ⟨h1, h2, h3⟩ := hrest
          refine ⟨?_, ⟨h2.valid, h2.locked, h2.queue⟩, h3⟩
          rw [List.append_assoc] at h1
          exact h1
      | error e =>
          intro hrest
          change intMax < b.tail + 1 + msg.length at hrest
          change intMax < b.tail + (msg.length + 1)
          omega

omit [DecidableEq π] in
/-- The oldest bytes are taken out. -/
theorem recvLoop_spec (n : Nat) {b : Mailbox π} {l : List UInt8} (hb : Holding b l)
    (hdata : b.head + n ≤ b.tail) (hmax : b.tail ≤ intMax) :
    ∃ bytes b', recvLoop n b = .ok (bytes, b') ∧ Holding b' l ∧ SameSides b b' ∧
      b'.head = b.head + n ∧ bytes.length = n ∧ l.take (b.head + n) = l.take b.head ++ bytes := by
  induction n generalizing b with
  | zero => exact ⟨[], b, rfl, hb, ⟨rfl, rfl, fun _ => rfl⟩, rfl, rfl, by simp⟩
  | succ n ih =>
      obtain ⟨htake, hcell⟩ := hb.take (by omega)
      obtain ⟨bytes, b', hrun, hw, hsame, hhead, hlen, hbytes⟩ :=
        ih (b := { b with head := b.head + 1 }) htake
          (by change b.head + 1 + n ≤ b.tail; omega) hmax
      change b'.head = b.head + 1 + n at hhead
      change l.take (b.head + 1 + n) = l.take (b.head + 1) ++ bytes at hbytes
      refine ⟨b.content (b.head % maxMboxLength) :: bytes, b', ?_, hw,
        ⟨hsame.valid, hsame.locked, hsame.queue⟩, by omega, by simp [hlen], ?_⟩
      · unfold recvLoop
        rw [if_neg (by omega : ¬b.head = intMax), hrun]
        rfl
      · rw [show b.head + (n + 1) = b.head + 1 + n by omega, hbytes, List.take_add_one, hcell]
        simp

end Mbox
