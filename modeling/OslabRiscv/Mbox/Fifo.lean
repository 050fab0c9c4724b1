import OslabRiscv.Mbox.Waiting

/-!
# Mailboxes deliver in order

At every scheduling point the ring holds what was sent and not yet received, and
what was received is what was sent first.
-/

namespace Mbox

open Outcome RingBuffer

variable {π : Type} {s s' t : State π} {p : π} {c : Request} {b : Mailbox π}
  {log : List (Event π)}

/-- The ring and the calls that have returned agree. -/
structure Recorded (b : Mailbox π) (log : List (Event π)) : Prop where
  holding : Holding b (sentBytes log)
  taken : receivedBytes log = (sentBytes log).take b.head
  exact : ∀ p len bytes, .received p len bytes ∈ log → bytes.length = len
  small : b.tail ≤ intMax

/-- Nothing but the ring is looked at. -/
theorem Recorded.congr {b' : Mailbox π} (h : Recorded b log) (hc : b'.content = b.content)
    (hh : b'.head = b.head) (ht : b'.tail = b.tail) : Recorded b' log where
  holding := by
    have := h.holding
    unfold Holding at this ⊢
    rw [hc, hh, ht]
    exact this
  taken := by
    rw [hh]
    exact h.taken
  exact := h.exact
  small := by
    rw [ht]
    exact h.small

/-- The mailbox at a scheduling point. -/
structure Intact (s : State π) : Prop where
  tidy : Tidy s
  valid : s.box.valid = true
  unlocked : s.box.locked = false
  recorded : Recorded s.box s.log

/-- What a process does from one scheduling point to the next: it waits, or its
call returns and may wake others. -/
inductive Stretch [DecidableEq π] (p : π) (c : Request) (s s' : State π) : Prop
  | waits (n : Nat) (hlen : (c.length : Int) > lengthFor s.box c)
      (hproc : s'.proc = Function.update s.proc p (some ⟨c, .wait, false, n⟩))
      (hhead : s'.box.head = s.box.head) (htail : s'.box.tail = s.box.tail)
  | returns (hlen : (c.length : Int) ≤ lengthFor s.box c) (hgone : s'.proc p = none)
      (hproc : ∀ q, q ≠ p → s'.proc q = s.proc q ∨ (q ∈ s.box.queue c.counter ∧
        ∃ d, s.proc q = some d ∧ s'.proc q = some { d with ready := true }))
      (hwoken : s.box.queue c.counter ≠ [] → ∃ q d, s'.proc q = some d ∧ d.ready = true)
      (hroom : lengthFor s'.box c = lengthFor s.box c - c.length)

/-- A call overflows the count of bytes. -/
def Overflows (b : Mailbox π) (c : Request) : Prop :=
  ∃ msg, c = .send msg ∧ intMax < b.tail + msg.length

/-- The copying loop keeps the record. -/
theorem transfer_spec (hb : Recorded b log) (hlen : (c.length : Int) ≤ lengthFor b c) (p : π)
    (n : Nat) :
    Holds (fun _ => Overflows b c)
      (fun r => Recorded r.2 (log ++ [r.1]) ∧ SameSides b r.2 ∧
        lengthFor r.2 c = lengthFor b c - c.length) (transfer p n b c) := by
  have hle := hb.holding.le
  have hlength := hb.holding.length
  cases c with
  | send msg =>
      change (msg.length : Int) ≤ maxMboxLength - ((b.tail : Int) - b.head) at hlen
      have hloop := sendLoop_spec msg hb.holding (by omega) hb.small
      simp only [transfer]
      cases hrun : sendLoop msg b with
      | error e =>
          rw [hrun] at hloop
          exact ⟨msg, rfl, hloop⟩
      | ok b' =>
          rw [hrun] at hloop
          obtain ⟨hw, hsame, hhead, hsmall⟩ := hloop
          have htail := hw.length
          rw [List.length_append, hlength] at htail
          refine ⟨⟨?_, ?_, ?_, hsmall⟩, hsame, ?_⟩
          · change Holding b' (sentBytes (log ++ [.sent p msg n]))
            rw [sentBytes_append]
            simpa [sentBytes] using hw
          · change receivedBytes (log ++ [.sent p msg n]) =
              (sentBytes (log ++ [.sent p msg n])).take b'.head
            rw [receivedBytes_append, sentBytes_append, hhead,
              List.take_append_of_le_length (by omega), ← hb.taken]
            simp [receivedBytes]
          · intro q len bytes hmem
            simp only [List.mem_append, List.mem_singleton, reduceCtorEq, or_false] at hmem
            exact hb.exact q len bytes hmem
          · change (maxMboxLength : Int) - ((b'.tail : Int) - b'.head) =
              maxMboxLength - ((b.tail : Int) - b.head) - msg.length
            omega
  | recv len =>
      change (len : Int) ≤ (b.tail : Int) - b.head at hlen
      obtain ⟨bytes, b', hrun, hw, hsame, hhead, hbytes, htake⟩ :=
        recvLoop_spec len hb.holding (by omega) hb.small
      have htail := hw.length
      simp only [transfer, hrun]
      have hsmall := hb.small
      refine ⟨⟨?_, ?_, ?_, ?_⟩, hsame, ?_⟩
      · change Holding b' (sentBytes (log ++ [.received p len bytes]))
        rw [sentBytes_append]
        simpa [sentBytes] using hw
      · change receivedBytes (log ++ [.received p len bytes]) =
          (sentBytes (log ++ [.received p len bytes])).take b'.head
        rw [receivedBytes_append, sentBytes_append, hhead]
        simpa [receivedBytes, sentBytes, hb.taken] using htake.symm
      · intro q m bs hmem
        rcases List.mem_append.mp hmem with hold | hnew
        · exact hb.exact q m bs hold
        · cases List.mem_singleton.mp hnew
          exact hbytes
      · change b'.tail ≤ intMax
        omega
      · change (b'.tail : Int) - b'.head = (b.tail : Int) - b.head - len
        omega

variable [DecidableEq π]

/-- Releasing the lock wakes nobody. -/
theorem releaseLock_eq (ht : Tidy s) :
    releaseLock s = { s with box := { s.box with locked := false } } := by
  unfold releaseLock unblockOne
  have hnil : ({ s.box with locked := false } : Mailbox π).queue .lock = [] := ht.lock_nil
  rw [hnil]

/-- What follows the copying loop wakes processes of one queue, and somebody where
somebody waits. -/
theorem wakeUps_spec (ht : Tidy s) (k : Which) (all : Bool) :
    Wakes k { s with box := { s.box with locked := false, userNum := s.box.userNum - 1 } }
      (wakeUps k all s) ∧
    (s.box.queue k ≠ [] →
      ∃ q ∈ s.box.queue k, ∃ d, (wakeUps k all s).proc q = some d ∧ d.ready = true) := by
  have hwakes : Wakes k s (if all then unblockAll k s else s) := by
    cases all with
    | true => exact unblockLoop_wakes _ _ ht
    | false => exact .refl _ _
  have hready : s.box.queue k ≠ [] →
      (∃ q ∈ s.box.queue k, ∃ d,
        (if all then unblockAll k s else s).proc q = some d ∧ d.ready = true) ∨
      (if all then unblockAll k s else s).box.queue k ≠ [] := by
    intro hne
    cases all with
    | true => exact .inl (unblockAll_ready ht hne)
    | false => exact .inr hne
  unfold wakeUps
  simp only
  generalize (if all = true then unblockAll k s else s) = w at hwakes hready
  rw [releaseLock_eq (hwakes.tidy ht)]
  have huser : w.box.userNum = s.box.userNum := by
    rw [hwakes.box]
    cases k <;> rfl
  have hsides := hwakes.setSides false (s.box.userNum - 1)
  have htidy := hsides.tidy (ht.congr (fun j => by cases j <;> rfl) rfl)
  simp only [huser]
  have hone := unblockOne_wakes htidy k
  refine ⟨hsides.trans hone, fun hne => ?_⟩
  rcases hready hne with ⟨q, hq, d, hd, hr⟩ | hleft
  · obtain ⟨d', hd', hr'⟩ := hone.ready hd hr
    exact ⟨q, hq, d', hd', hr'⟩
  · obtain ⟨q, hq, d, hd, hr⟩ := unblockOne_ready (k := k) htidy (by cases k <;> exact hleft)
    refine ⟨q, hwakes.sub q ?_, d, hd, hr⟩
    cases k <;> exact hq

omit [DecidableEq π] in
/-- Waking leaves the ring alone. -/
theorem Wakes.recorded {k : Which} (h : Wakes k s s') (hr : Recorded s.box log) :
    Recorded s'.box log := by
  rw [h.box]
  cases k <;> exact hr.congr rfl rfl rfl

/-- From the copying loop to the return, with the lock taken. -/
theorem complete_spec (ht : Tidy s) (hv : s.box.valid = true) (hr : Recorded s.box s.log)
    (hf : Free s p) (hlen : (c.length : Int) ≤ lengthFor s.box c) (n : Nat) :
    Holds (fun _ => Overflows s.box c) (fun s' => Intact s' ∧ Stretch p c s s')
      (complete p c n s) := by
  unfold complete
  refine (transfer_spec hr hlen p n).bind fun r hrec => ?_
  obtain ⟨e, b⟩ := r
  obtain ⟨hrec, hsame, hroom⟩ := hrec
  have ht₁ : Tidy { s with box := b } := ht.congr hsame.queue rfl
  obtain ⟨hwakes, hready⟩ := wakeUps_spec ht₁ c.counter (extreme b c)
  simp only [holds_ok]
  generalize hw : wakeUps c.counter (extreme b c) { s with box := b } = w at hwakes hready
  have ht₂ : Tidy w := hwakes.tidy (ht₁.congr (fun j => by cases j <;> rfl) rfl)
  have hfree : Free w p := hwakes.free hf
  have hbox := hwakes.box
  constructor
  · refine ⟨ht₂.leave hfree e, ?_, ?_, ?_⟩
    · change w.box.valid = true
      rw [hbox, ← hv, ← hsame.valid]
      cases c.counter <;> rfl
    · change w.box.locked = false
      rw [hbox]
      cases c.counter <;> rfl
    · change Recorded w.box (w.log ++ [e])
      rw [hwakes.log]
      exact hwakes.recorded (hrec.congr rfl rfl rfl)
  · refine .returns hlen (Function.update_self _ _ _) (fun q hq => ?_) (fun hne => ?_) ?_
    · have hproc := hwakes.proc q
      have hsides : ({ b with locked := false, userNum := b.userNum - 1 } : Mailbox π).queue
          c.counter = s.box.queue c.counter := by
        rw [← hsame.queue]
        cases c.counter <;> rfl
      change (Function.update w.proc p none) q = _ ∨
        _ ∧ ∃ d, _ ∧ (Function.update w.proc p none) q = _
      rw [Function.update_of_ne hq, ← hsides]
      exact hproc
    · rw [← hsame.queue] at hne
      obtain ⟨q, hq, d, hd, hdr⟩ := hready hne
      have hqp : q ≠ p := by
        intro heq
        rw [heq] at hq
        exact Free.not_mem (s := { s with box := b }) hf ht₁ _ hq
      refine ⟨q, d, ?_, hdr⟩
      exact (Function.update_of_ne hqp none w.proc).trans hd
    · rw [← hroom]
      change lengthFor w.box c = _
      rw [hbox]
      cases c <;> rfl

/-- A process that may run takes the lock and comes to its next scheduling
point. -/
theorem acquire_spec (hs : Intact s) (hf : Free s p) (n : Nat) :
    Holds (fun _ => Overflows s.box c) (fun s' => Intact s' ∧ Stretch p c s s')
      (acquire p c n s) := by
  unfold acquire critical
  rw [if_neg (by rw [hs.unlocked]; simp)]
  have htidy : Tidy { s with box := { s.box with locked := true } } :=
    hs.tidy.congr (fun k => by cases k <;> rfl) rfl
  have hsame : lengthFor { s.box with locked := true } c = lengthFor s.box c := by
    cases c <;> rfl
  by_cases hlen : (c.length : Int) > lengthFor s.box c
  · rw [if_pos (by rw [hsame]; exact hlen), releaseLock_eq htidy]
    have hlocked : ({ s with box := { s.box with locked := false } } : State π) = s := by
      rw [← hs.unlocked]
    simp only [holds_ok, hlocked]
    refine ⟨⟨hs.tidy.suspend hf _, ?_, ?_, ?_⟩, .waits (n + 1) hlen rfl ?_ ?_⟩
    · cases c <;> exact hs.valid
    · cases c <;> exact hs.unlocked
    · cases c <;> exact hs.recorded.congr rfl rfl rfl
    · cases c <;> rfl
    · cases c <;> rfl
  · rw [if_neg (by rw [hsame]; exact hlen)]
    have hdone := complete_spec (s := { s with box := { s.box with locked := true } }) (c := c)
      htidy hs.valid (hs.recorded.congr rfl rfl rfl) hf (by rw [hsame]; omega) n
    revert hdone
    cases complete p c n { s with box := { s.box with locked := true } } with
    | error e =>
        intro hdone
        exact hdone
    | ok s' =>
        intro hdone
        obtain ⟨hi, hst⟩ := hdone
        refine ⟨hi, ?_⟩
        cases hst with
        | waits m h1 h2 h3 h4 => exact .waits m (hsame ▸ h1) h2 h3 h4
        | returns h1 h2 h3 h4 h5 =>
            have hq : ({ s.box with locked := true } : Mailbox π).queue c.counter =
                s.box.queue c.counter := by
              cases c <;> rfl
            simp only [hsame, hq] at h1 h3 h4 h5
            exact .returns h1 h2 h3 h4 h5

/-! ## Steps and runs -/

/-- The process that acts. -/
def Act.process : Act π → π
  | .send p _ => p
  | .recv p _ => p
  | .resume p => p

/-- The call it is in. -/
def requestOf (s : State π) : Act π → Request
  | .send _ msg => .send msg
  | .recv _ len => .recv len
  | .resume p => ((s.proc p).map Inside.request).getD (.recv 0)

/-- The process can act so: it is in no call, or it was woken. -/
def Runnable (s : State π) : Act π → Prop
  | .send p _ => s.proc p = none
  | .recv p _ => s.proc p = none
  | .resume p => ∃ d, s.proc p = some d ∧ d.ready = true

theorem runnable_of_ok {a : Act π} (h : step a s = .ok s') : Runnable s a := by
  cases a with
  | send p msg =>
      simp only [step] at h
      by_cases hp : s.proc p = none
      · exact hp
      · rw [if_neg hp] at h
        cases h
  | recv p len =>
      simp only [step] at h
      by_cases hp : s.proc p = none
      · exact hp
      · rw [if_neg hp] at h
        cases h
  | resume p =>
      simp only [step] at h
      cases hp : s.proc p with
      | none =>
          rw [hp] at h
          cases h
      | some d =>
          rw [hp] at h
          by_cases hd : d.ready = true
          · exact ⟨d, hp, hd⟩
          · simp only [hd] at h
            cases h

omit [DecidableEq π] in
/-- A process in no call is in no queue. -/
theorem free_of_none (h : s.proc p = none) : Free s p := by
  intro d hd
  rw [h] at hd
  cases hd

/-- A new call comes to its first scheduling point, or returns. -/
theorem enter_spec (hs : Intact s) (hp : s.proc p = none) :
    Holds (fun _ => Overflows s.box c) (fun s' => Intact s' ∧ Stretch p c s s')
      (enter p c s) := by
  unfold enter
  rw [if_neg (by rw [hs.valid]; simp)]
  have hi : Intact { s with box := { s.box with userNum := s.box.userNum + 1 } } :=
    ⟨hs.tidy.congr (fun k => by cases k <;> rfl) rfl, hs.valid, hs.unlocked,
      hs.recorded.congr rfl rfl rfl⟩
  have hspec := acquire_spec (c := c) hi (free_of_none (p := p) hp) 0
  cases c <;> exact hspec.mono fun s' h => ⟨h.1, by cases h.2 with
    | waits m h1 h2 h3 h4 => exact .waits m h1 h2 h3 h4
    | returns h1 h2 h3 h4 h5 => exact .returns h1 h2 h3 h4 h5⟩

/-- **A step** leads from one scheduling point to the next, or overflows the
count of bytes. -/
theorem step_spec {a : Act π} (hs : Intact s) (ha : Runnable s a) :
    Holds (fun _ => Overflows s.box (requestOf s a))
      (fun s' => Intact s' ∧ Stretch a.process (requestOf s a) s s') (step a s) := by
  cases a with
  | send p msg =>
      simp only [step, if_pos (show s.proc p = none from ha)]
      exact enter_spec hs ha
  | recv p len =>
      simp only [step, if_pos (show s.proc p = none from ha)]
      exact enter_spec hs ha
  | resume p =>
      obtain ⟨d, hd, hr⟩ := ha
      have hreq : requestOf s (.resume p) = d.request := by
        simp [requestOf, hd]
      have hfree : Free s p := by
        intro d' hd'
        rw [hd] at hd'
        cases hd'
        exact hr
      simp only [step, hd, hr, if_true, goOn, hs.tidy.spot p d hd, hreq]
      exact acquire_spec hs hfree d.blocked

omit [DecidableEq π] in
theorem initMbox_intact : Intact (initMbox : State π) where
  tidy :=
    { members := by
        intro p k
        cases k <;> simp [initMbox, Mailbox.queue]
      nodup := by
        intro k
        cases k <;> exact List.nodup_nil
      spot := by
        intro p d hd
        cases hd }
  valid := rfl
  unlocked := rfl
  recorded := ⟨Window.empty _ _, rfl, by simp [initMbox], Nat.zero_le _⟩

theorem run_intact {acts : List (Act π)} (hrun : run step acts initMbox = .ok t) : Intact t := by
  refine run_invariant (C := fun _ _ => True) (I := Intact) ?_ acts initMbox t initMbox_intact ?_ hrun
  · intro s a s' hs _ hstep
    exact ((step_spec hs (runnable_of_ok hstep)).of_ok hstep).1
  · clear hrun
    generalize (initMbox : State π) = s₀
    induction acts generalizing s₀ with
    | nil => trivial
    | cons a acts ih =>
        refine ⟨trivial, ?_⟩
        cases step a s₀ with
        | ok s₁ => exact ih s₁
        | error e => trivial

/-- The bytes a call is to send. -/
def Request.message : Request → List UInt8
  | .send msg => msg
  | .recv _ => []

/-- What holds of a mailbox between two scheduling points. -/
structure Fifo (s : State π) : Prop where
  unlocked : s.box.locked = false
  noQueue : s.box.lockQueue = []
  bounds : 0 ≤ (s.box.tail : Int) - s.box.head ∧ (s.box.tail : Int) - s.box.head ≤ 64
  content : contents 64 s.box.content s.box.head s.box.tail =
    (sentBytes s.log).drop ((sentBytes s.log).length - (s.box.tail - s.box.head))
  received : receivedBytes s.log = (sentBytes s.log).take s.box.head
  consecutive : ∀ before p msg n after, s.log = before ++ .sent p msg n :: after →
    ∀ i, i < msg.length → s.box.head ≤ (sentBytes before).length + i →
      msg[i]? = some (s.box.content (((sentBytes before).length + i) % 64))
  exact : ∀ p len bytes, .received p len bytes ∈ s.log → bytes.length = len

omit [DecidableEq π] in
theorem Intact.fifo (hs : Intact s) : Fifo s := by
  have hw := hs.recorded.holding
  have hle := hw.le
  have hroom := hw.room
  have hlen := hw.length
  refine ⟨hs.unlocked, hs.tidy.lock_nil, ⟨by omega, ?_⟩, ?_, hs.recorded.taken, ?_,
    hs.recorded.exact⟩
  · unfold maxMboxLength at hroom
    omega
  · rw [hlen, show s.box.tail - (s.box.tail - s.box.head) = s.box.head by omega]
    exact hw.contents_eq
  · intro before p msg n after hlog i hi hhead
    have hsent : sentBytes s.log = sentBytes before ++ (msg ++ sentBytes after) := by
      rw [hlog, sentBytes_append]
      rfl
    rw [hsent] at hlen
    simp only [List.length_append] at hlen
    have hcell := hw.cells ((sentBytes before).length + i) hhead (by omega)
    rw [hsent, List.getElem?_append_right (by omega), Nat.add_sub_cancel_left,
      List.getElem?_append_left hi] at hcell
    exact hcell

/-- **Mailboxes deliver in order.**  After any interleaving of calls the ring
holds the last bytes sent and what was received is what was sent first; and a
process that can act comes to its next scheduling point, unless it would bring
the bytes ever sent to `2^31`. -/
theorem mailbox_fifo {acts : List (Act π)} (hrun : run step acts initMbox = .ok t) :
    Fifo t ∧ ∀ a, Runnable t a →
      (sentBytes t.log).length + (requestOf t a).message.length < 2 ^ 31 →
      ∃ t', step a t = .ok t' := by
  have ht := run_intact hrun
  refine ⟨ht.fifo, fun a ha hsmall => ?_⟩
  obtain ⟨t', ht', _⟩ := (step_spec ht ha).exists_ok (fun e he _ => by
    obtain ⟨msg, hmsg, hover⟩ := he
    rw [hmsg, ht.recorded.holding.length] at hsmall
    change t.box.tail + msg.length < 2 ^ 31 at hsmall
    unfold intMax at hover
    omega)
  exact ⟨t', ht'⟩

/-- A receiver waits, a sender completes and wakes it, and it gets the first two
of three bytes. -/
theorem mailbox_fifo_delivery : ∃ t : State Nat,
    run step [.recv 1 2, .send 0 [7, 8, 9], .resume 1] initMbox = .ok t ∧
      t.log = [.sent 0 [7, 8, 9] 0, .received 1 2 [7, 8]] ∧ Fifo t := by
  obtain ⟨t, hrun, hlog⟩ := exists_of_returns (ε := Stop)
    (P := fun t : State Nat => t.log = [.sent 0 [7, 8, 9] 0, .received 1 2 [7, 8]])
    (x := run step [.recv 1 2, .send 0 [7, 8, 9], .resume 1] initMbox) (by decide)
  exact ⟨t, hrun, hlog, (mailbox_fifo hrun).1⟩

end Mbox
