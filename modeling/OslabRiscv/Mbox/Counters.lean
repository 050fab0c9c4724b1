import OslabRiscv.Mbox.Waiting

/-!
# The counters of a mailbox over long runs

`do_mbox_send` and `do_mbox_recv` once more, with `head` and `tail` as the machine has
them: 32 bits that are read as a signed number and come round.  The remainder of a negative
count is negative, and an index of that kind lies in front of the array.  What the calls do
to the queues is that of `Mbox.Mailbox`.
-/

namespace Mbox

open Outcome

variable {π : Type} [DecidableEq π] {s s' t : State π} {p : π} {c : Request} {b b' : Mailbox π}
  {is : List Int}

/-! ## The calls -/

/-- The `int` with these bits. -/
def asInt (bits : Nat) : Int := Int.bmod bits (2 ^ 32)

/-- `tail % MAX_MBOX_LENGTH` and `head % MAX_MBOX_LENGTH`. -/
def index (bits : Nat) : Int := Int.tmod (asInt bits) maxMboxLength

/-- Where `content[i]` is, counted from the start of the array. -/
def offset (i : Int) : Nat := (i % 2 ^ 64).toNat

def increment (bits : Nat) : Nat := (bits + 1) % 2 ^ 32

/-- The loop of `do_mbox_send`, with the indices it uses. -/
def sendWrapped : List UInt8 → Mailbox π → Mailbox π × List Int
  | [], b => (b, [])
  | c :: cs, b =>
    let r := sendWrapped cs { b with
      content := Function.update b.content (offset (index b.tail)) c
      tail := increment b.tail }
    (r.1, index b.tail :: r.2)

/-- The loop of `do_mbox_recv`, with the indices it uses. -/
def recvWrapped : Nat → Mailbox π → List UInt8 × Mailbox π × List Int
  | 0, b => ([], b, [])
  | n + 1, b =>
    let r := recvWrapped n { b with head := increment b.head }
    (b.content (offset (index b.head)) :: r.1, r.2.1, index b.head :: r.2.2)

/-- `tail - head`. -/
def difference (b : Mailbox π) : Int := Int.bmod (asInt b.tail - asInt b.head) (2 ^ 32)

def lengthWrapped (b : Mailbox π) : Request → Int
  | .send _ => Int.bmod (maxMboxLength - difference b) (2 ^ 32)
  | .recv _ => difference b

def transferWrapped (p : π) (blocked : Nat) (b : Mailbox π) :
    Request → Event π × Mailbox π × List Int
  | .send msg =>
    let r := sendWrapped msg b
    (.sent p msg blocked, r.1, r.2)
  | .recv len =>
    let r := recvWrapped len b
    (.received p len r.1, r.2.1, r.2.2)

/-- `full` and `empty`. -/
def extremeWrapped (b : Mailbox π) : Request → Bool
  | .send _ => Int.bmod (asInt b.head + maxMboxLength) (2 ^ 32) = asInt b.tail
  | .recv _ => asInt b.head = asInt b.tail

/-- From the copying loop to the return, with the indices used. -/
def completeWrapped (p : π) (c : Request) (blocked : Nat) (s : State π) : State π × List Int :=
  let r := transferWrapped p blocked s.box c
  (leave p r.1 (wakeUps c.counter (extremeWrapped r.2.1 c) { s with box := r.2.1 }), r.2.2)

def criticalWrapped (p : π) (c : Request) (blocked : Nat) (s : State π) : State π × List Int :=
  if (c.length : Int) > lengthWrapped s.box c then
    (suspend p c.queue ⟨c, .wait, false, blocked + 1⟩ (releaseLock s), [])
  else completeWrapped p c blocked s

def acquireWrapped (p : π) (c : Request) (blocked : Nat) (s : State π) : State π × List Int :=
  if s.box.locked then (suspend p .lock ⟨c, .lock, false, blocked + 1⟩ s, [])
  else criticalWrapped p c blocked { s with box := { s.box with locked := true } }

def enterWrapped (p : π) (c : Request) (s : State π) : State π × List Int :=
  if s.box.valid = false then ({ s with log := s.log ++ [.refused p] }, [])
  else acquireWrapped p c 0 { s with box := { s.box with userNum := s.box.userNum + 1 } }

def goOnWrapped (p : π) (c : Inside) (s : State π) : State π × List Int :=
  match c.spot with
  | .lock => criticalWrapped p c.request c.blocked s
  | .wait => acquireWrapped p c.request c.blocked s

/-- A stretch of one process, with the indices used so far. -/
def stepWrapped (a : Act π) (q : State π × List Int) : Except Stop (State π × List Int) :=
  let used (r : State π × List Int) := (r.1, q.2 ++ r.2)
  match a with
  | .send p msg =>
    if q.1.proc p = none then .ok (used (enterWrapped p (.send msg) q.1)) else .error .notRunnable
  | .recv p len =>
    if q.1.proc p = none then .ok (used (enterWrapped p (.recv len) q.1)) else .error .notRunnable
  | .resume p =>
    match q.1.proc p with
    | none => .error .notRunnable
    | some c => if c.ready then .ok (used (goOnWrapped p c q.1)) else .error .notRunnable

/-! ## What waking and waiting leave alone -/

/-- The same counters and the same returned calls. -/
structure Counts (s s' : State π) : Prop where
  head : s'.box.head = s.box.head
  tail : s'.box.tail = s.box.tail
  log : s'.log = s.log

omit [DecidableEq π] in
theorem Counts.refl (s : State π) : Counts s s := ⟨rfl, rfl, rfl⟩

omit [DecidableEq π] in
theorem Counts.trans (h : Counts s s') (h' : Counts s' t) : Counts s t :=
  ⟨h'.head.trans h.head, h'.tail.trans h.tail, h'.log.trans h.log⟩

omit [DecidableEq π] in
/-- Queues do not count. -/
theorem counts_setQueue (k : Which) (q : List π) (s : State π) :
    Counts s { s with box := s.box.setQueue k q } := by
  cases k with
  | lock => exact ⟨rfl, rfl, rfl⟩
  | full => exact ⟨rfl, rfl, rfl⟩
  | empty => exact ⟨rfl, rfl, rfl⟩

/-- Waking one process counts nothing. -/
theorem counts_unblockOne (k : Which) (s : State π) : Counts s (unblockOne k s) := by
  unfold unblockOne
  cases s.box.queue k with
  | nil => exact .refl s
  | cons p rest =>
      have h := counts_setQueue k rest s
      exact ⟨h.head, h.tail, h.log⟩

/-- Waking a queue counts nothing, by induction on its length. -/
theorem counts_unblockLoop (k : Which) (n : Nat) : ∀ s : State π, Counts s (unblockLoop k n s) := by
  induction n with
  | zero => exact fun s => .refl s
  | succ n ih => exact fun s => (counts_unblockOne k s).trans (ih _)

/-- Releasing the lock counts nothing. -/
theorem counts_releaseLock (s : State π) : Counts s (releaseLock s) := by
  have h := counts_unblockOne .lock { s with box := { s.box with locked := false } }
  exact ⟨h.head, h.tail, h.log⟩

/-- Waking up after a call counts nothing. -/
theorem counts_wakeUps (k : Which) (all : Bool) (s : State π) : Counts s (wakeUps k all s) := by
  have hall : Counts s (if all then unblockAll k s else s) := by
    split_ifs with h
    · exact counts_unblockLoop k _ s
    · exact .refl s
  have hrel := hall.trans (counts_releaseLock _)
  unfold wakeUps
  refine (hrel.trans ?_).trans (counts_unblockOne k _)
  exact ⟨rfl, rfl, rfl⟩

/-- Going to sleep counts nothing. -/
theorem counts_suspend (p : π) (k : Which) (c : Inside) (s : State π) :
    Counts s (suspend p k c s) := by
  have h := counts_setQueue k (s.box.queue k ++ [p]) s
  exact ⟨h.head, h.tail, h.log⟩

/-! ## Counting -/

/-- The index a counter stands at after `k` bytes. -/
def indexAfter (k : Nat) : Int := index (k % 2 ^ 32)

/-- The index that the bits of a counter stand for. -/
theorem index_of_bits {bits k : Nat} (h : bits = k % 2 ^ 32) : index bits = indexAfter k := by
  unfold indexAfter
  rw [h]

/-- The counters against the calls that have returned: `n` bytes sent, `m` received, and
the indices used are those of these bytes. -/
structure Tallied (b : Mailbox π) (n m : Nat) (is : List Int) : Prop where
  tail : b.tail = n % 2 ^ 32
  head : b.head = m % 2 ^ 32
  window : m ≤ n ∧ n ≤ m + maxMboxLength
  used : ∀ i ∈ is, ∃ k, k < n ∧ i = indexAfter k
  all : ∀ k, k < n → indexAfter k ∈ is

/-- A counter is incremented modulo its width. -/
theorem increment_mod (n : Nat) : increment (n % 2 ^ 32) = (n + 1) % 2 ^ 32 := by
  unfold increment
  omega

omit [DecidableEq π] in
/-- The difference of the counters is that of the bytes. -/
theorem Tallied.difference {n m : Nat} (h : Tallied b n m is) : difference b = n - m := by
  have hw := h.window
  unfold Mbox.difference asInt
  rw [h.tail, h.head]
  simp only [maxMboxLength] at hw
  have h1 := Int.emod_bmod
  rw [Int.bmod_def, Int.bmod_def, Int.bmod_def]
  omega

omit [DecidableEq π] in
/-- The loop of a send uses one index after the other. -/
theorem sendWrapped_spec (msg : List UInt8) : ∀ (b : Mailbox π) (n : Nat), b.tail = n % 2 ^ 32 →
    (sendWrapped msg b).1.tail = (n + msg.length) % 2 ^ 32 ∧
      (sendWrapped msg b).1.head = b.head ∧
      ∀ i, i ∈ (sendWrapped msg b).2 ↔ ∃ k, n ≤ k ∧ k < n + msg.length ∧ i = indexAfter k := by
  induction msg with
  | nil =>
      intro b n htail
      refine ⟨htail, rfl, fun i => ⟨fun hi => (by cases hi), fun hex => ?_⟩⟩
      obtain ⟨k, h1, h2, _⟩ := hex
      simp only [List.length_nil] at h2
      omega
  | cons c cs ih =>
      intro b n htail
      have hnext : increment b.tail = (n + 1) % 2 ^ 32 := by
        rw [htail, increment_mod]
      obtain ⟨htail', hhead', hmem⟩ := ih { b with
        content := Function.update b.content (offset (index b.tail)) c
        tail := increment b.tail } (n + 1) hnext
      refine ⟨?_, hhead', fun i => ?_⟩
      · rw [List.length_cons, show n + (cs.length + 1) = n + 1 + cs.length by omega]
        exact htail'
      · simp only [sendWrapped, List.mem_cons, hmem, List.length_cons]
        constructor
        · intro hor
          rcases hor with hi | hex
          · exact ⟨n, le_rfl, by omega, hi.trans (index_of_bits htail)⟩
          · obtain ⟨k, h1, h2, h3⟩ := hex
            exact ⟨k, by omega, by omega, h3⟩
        · intro hex
          obtain ⟨k, h1, h2, h3⟩ := hex
          by_cases hk : k = n
          · left
            rw [h3, hk, index_of_bits htail]
          · right
            exact ⟨k, by omega, by omega, h3⟩

omit [DecidableEq π] in
/-- The loop of `do_mbox_recv` moves the head by the length it copies, by induction on it. -/
theorem recvWrapped_spec (len : Nat) : ∀ (b : Mailbox π) (m : Nat), b.head = m % 2 ^ 32 →
    (recvWrapped len b).1.length = len ∧
      (recvWrapped len b).2.1.head = (m + len) % 2 ^ 32 ∧
      (recvWrapped len b).2.1.tail = b.tail ∧
      ∀ i ∈ (recvWrapped len b).2.2, ∃ k, m ≤ k ∧ k < m + len ∧ i = indexAfter k := by
  induction len with
  | zero => exact fun b m hhead => ⟨rfl, hhead, rfl, fun i hi => by cases hi⟩
  | succ len ih =>
      intro b m hhead
      have hnext : increment b.head = (m + 1) % 2 ^ 32 := by
        rw [hhead, increment_mod]
      obtain ⟨hlen, hhead', htail', hmem⟩ := ih { b with head := increment b.head } (m + 1) hnext
      refine ⟨?_, ?_, htail', fun i hi => ?_⟩
      · simp only [recvWrapped, List.length_cons, hlen]
      · rw [show m + (len + 1) = m + 1 + len by omega]
        exact hhead'
      · simp only [recvWrapped, List.mem_cons] at hi
        rcases hi with hi | hi
        · exact ⟨m, le_rfl, by omega, hi.trans (index_of_bits hhead)⟩
        · obtain ⟨k, h1, h2, h3⟩ := hmem i hi
          exact ⟨k, by omega, by omega, h3⟩

/-- The end of a call changes the books as its copying loop does. -/
theorem completeWrapped_eq (p : π) (c : Request) (blocked : Nat) (s : State π) :
    ∃ w : State π, completeWrapped p c blocked s =
        (leave p (transferWrapped p blocked s.box c).1 w, (transferWrapped p blocked s.box c).2.2) ∧
      w.box.tail = (transferWrapped p blocked s.box c).2.1.tail ∧
      w.box.head = (transferWrapped p blocked s.box c).2.1.head ∧ w.log = s.log := by
  have h := counts_wakeUps c.counter (extremeWrapped (transferWrapped p blocked s.box c).2.1 c)
    { s with box := (transferWrapped p blocked s.box c).2.1 }
  exact ⟨_, rfl, h.tail, h.head, h.log⟩

/-- What the copying loops do to the books, given room or data. -/
theorem completeWrapped_spec {n m : Nat} (h : Tallied s.box n m is)
    (hlen : (c.length : Int) ≤ lengthWrapped s.box c) (blocked : Nat) :
    ∃ n' m' es, Tallied (completeWrapped p c blocked s).1.box n' m'
        (is ++ (completeWrapped p c blocked s).2) ∧
      (completeWrapped p c blocked s).1.log = s.log ++ es ∧
      n' = n + (sentBytes es).length ∧ m' = m + (receivedBytes es).length := by
  have hdiff := h.difference
  have hw := h.window
  obtain ⟨w, heq, hwtail, hwhead, hwlog⟩ := completeWrapped_eq p c blocked s
  rw [heq]
  cases c with
  | send msg =>
      obtain ⟨htail, hhead, hmem⟩ := sendWrapped_spec msg s.box n h.tail
      simp only [transferWrapped] at hwtail hwhead ⊢
      have hroom : n + msg.length ≤ m + maxMboxLength := by
        simp only [lengthWrapped, Request.length, hdiff, maxMboxLength] at hlen hw ⊢
        rw [Int.bmod_def] at hlen
        omega
      refine ⟨n + msg.length, m, [.sent p msg blocked], ?_, by simp [leave, hwlog],
        by simp [sentBytes], by simp [receivedBytes]⟩
      refine ⟨?_, ?_, ⟨by omega, hroom⟩, fun i hi => ?_, fun k hk => ?_⟩
      · rw [← htail]
        exact hwtail
      · rw [← h.head, ← hhead]
        exact hwhead
      · rcases List.mem_append.mp hi with hi | hi
        · obtain ⟨k, h1, h2⟩ := h.used i hi
          exact ⟨k, by omega, h2⟩
        · obtain ⟨k, _, h2, h3⟩ := (hmem i).mp hi
          exact ⟨k, h2, h3⟩
      · by_cases hkn : k < n
        · exact List.mem_append_left _ (h.all k hkn)
        · exact List.mem_append_right _ ((hmem _).mpr ⟨k, by omega, hk, rfl⟩)
  | recv len =>
      obtain ⟨hbytes, hhead, htail, hmem⟩ := recvWrapped_spec len s.box m h.head
      simp only [transferWrapped] at hwtail hwhead ⊢
      have hdata : m + len ≤ n := by
        simp only [lengthWrapped, Request.length, hdiff] at hlen
        omega
      refine ⟨n, m + len, [.received p len (recvWrapped len s.box).1], ?_, by simp [leave, hwlog],
        by simp [sentBytes], by simp [receivedBytes, hbytes]⟩
      refine ⟨?_, ?_, ⟨hdata, by omega⟩, fun i hi => ?_, fun k hk => ?_⟩
      · rw [← h.tail, ← htail]
        exact hwtail
      · rw [← hhead]
        exact hwhead
      · rcases List.mem_append.mp hi with hi | hi
        · exact h.used i hi
        · obtain ⟨k, _, h2, h3⟩ := hmem i hi
          exact ⟨k, by omega, h3⟩
      · exact List.mem_append_left _ (h.all k hk)

/-- The mailbox and its books between two stretches. -/
def Booked (q : State π × List Int) : Prop :=
  Tallied q.1.box (sentBytes q.1.log).length (receivedBytes q.1.log).length q.2

omit [DecidableEq π] in
/-- The books stay right where nothing is counted. -/
theorem Tallied.counts {n m : Nat} (h : Tallied s.box n m is) (hc : Counts s s') :
    Tallied s'.box n m is :=
  ⟨hc.tail.trans h.tail, hc.head.trans h.head, h.window, h.used, h.all⟩

omit [DecidableEq π] in
/-- The same with the state of the calls. -/
theorem Booked.counts (h : Booked (s, is)) (hc : Counts s s') : Booked (s', is) := by
  unfold Booked at h ⊢
  simp only at h ⊢
  rw [hc.log]
  exact h.counts hc

/-- The part of a call under the lock keeps the books. -/
theorem criticalWrapped_booked (h : Booked (s, is)) (p : π) (c : Request) (blocked : Nat) :
    Booked ((criticalWrapped p c blocked s).1, is ++ (criticalWrapped p c blocked s).2) := by
  unfold criticalWrapped
  split_ifs with hlen
  · rw [List.append_nil]
    exact h.counts ((counts_releaseLock s).trans (counts_suspend p _ _ _))
  · obtain ⟨n', m', es, ht, hlog, hn, hm⟩ := completeWrapped_spec (p := p) h (not_lt.mp hlen) blocked
    unfold Booked
    simp only
    rw [hlog, sentBytes_append, receivedBytes_append, List.length_append, List.length_append, ← hn,
      ← hm]
    exact ht

/-- Taking the lock keeps the books. -/
theorem acquireWrapped_booked (h : Booked (s, is)) (p : π) (c : Request) (blocked : Nat) :
    Booked ((acquireWrapped p c blocked s).1, is ++ (acquireWrapped p c blocked s).2) := by
  unfold acquireWrapped
  split_ifs with hlock
  · rw [List.append_nil]
    exact h.counts (counts_suspend p _ _ s)
  · have h' : Booked (({ s with box := { s.box with locked := true } } : State π), is) :=
      h.counts ⟨rfl, rfl, rfl⟩
    exact criticalWrapped_booked h' p c blocked

/-- Entering a call keeps the books. -/
theorem enterWrapped_booked (h : Booked (s, is)) (p : π) (c : Request) :
    Booked ((enterWrapped p c s).1, is ++ (enterWrapped p c s).2) := by
  unfold enterWrapped
  split_ifs with hvalid
  · rw [List.append_nil]
    unfold Booked at h ⊢
    simp only [sentBytes_append, receivedBytes_append, sentBytes, receivedBytes, List.append_nil]
    exact h
  · have h' : Booked (({ s with box := { s.box with userNum := s.box.userNum + 1 } } : State π),
        is) := h.counts ⟨rfl, rfl, rfl⟩
    exact acquireWrapped_booked h' p c 0

/-- **Every stretch keeps the books.** -/
theorem stepWrapped_booked {q q' : State π × List Int} (h : Booked q) {a : Act π}
    (hstep : stepWrapped a q = .ok q') : Booked q' := by
  cases a with
  | send p msg =>
      simp only [stepWrapped] at hstep
      split_ifs at hstep
      rw [← Except.ok.inj hstep]
      exact enterWrapped_booked h p (.send msg)
  | recv p len =>
      simp only [stepWrapped] at hstep
      split_ifs at hstep
      rw [← Except.ok.inj hstep]
      exact enterWrapped_booked h p (.recv len)
  | resume p =>
      simp only [stepWrapped] at hstep
      cases hc : q.1.proc p with
      | none =>
          rw [hc] at hstep
          cases hstep
      | some c =>
          rw [hc] at hstep
          simp only at hstep
          split_ifs at hstep
          rw [← Except.ok.inj hstep]
          unfold goOnWrapped
          cases c.spot with
          | lock => exact criticalWrapped_booked h p c.request c.blocked
          | wait => exact acquireWrapped_booked h p c.request c.blocked

omit [DecidableEq π] in
/-- The mailbox begins with nothing sent and nothing received. -/
theorem initMbox_booked : Booked ((initMbox : State π), []) :=
  ⟨rfl, rfl, ⟨le_rfl, Nat.zero_le _⟩, (fun _ hi => by cases hi),
    fun _ hk => absurd hk (Nat.not_lt_zero _)⟩

/-! ## The index after long runs -/

/-- An index is that of a byte of the array up to count 2^31; the next one is not. -/
theorem indexAfter_range {k : Nat} (h : k ≤ 2 ^ 31) :
    0 ≤ indexAfter k ∧ indexAfter k < maxMboxLength := by
  unfold indexAfter index maxMboxLength
  by_cases hk : k = 2 ^ 31
  · rw [hk]
    decide
  · have hint : asInt (k % 2 ^ 32) = k := by
      unfold asInt
      rw [Int.bmod_def]
      omega
    rw [hint, Int.tmod_eq_emod_of_nonneg (by omega)]
    exact ⟨by omega, by omega⟩

/-- The first index outside of the array. -/
theorem indexAfter_past : indexAfter (2 ^ 31 + 1) = -63 := by
  decide

/-- All indices used lie in the array, and the counters differ by the bytes sent and not
yet received. -/
def CountsRight (q : State π × List Int) : Prop :=
  (∀ i ∈ q.2, 0 ≤ i ∧ i < maxMboxLength) ∧
    difference q.1.box = (sentBytes q.1.log).length - (receivedBytes q.1.log).length

/-- **The counters of a mailbox are right** after exactly those runs in which it has been
sent at most 2^31 + 1 bytes. -/
theorem counters_right_iff {acts : List (Act π)} {q : State π × List Int}
    (hrun : run stepWrapped acts (initMbox, []) = .ok q) :
    CountsRight q ↔ (sentBytes q.1.log).length ≤ 2 ^ 31 + 1 := by
  have hb : Booked q := by
    refine run_invariant (I := Booked) (C := fun _ _ => True) (fun q a q' h _ hstep => ?_) acts
      (initMbox, []) q initMbox_booked (allSteps_true _ _) hrun
    exact stepWrapped_booked h hstep
  constructor
  · intro hright
    by_contra hlong
    have hpast := (hright.1 _ (hb.all (2 ^ 31 + 1) (by omega))).1
    rw [indexAfter_past] at hpast
    omega
  · intro hshort
    refine ⟨fun i hi => ?_, hb.difference⟩
    obtain ⟨k, hk, hik⟩ := hb.used i hi
    rw [hik]
    exact indexAfter_range (Nat.lt_succ_iff.mp (lt_of_lt_of_le hk hshort))

/-! ## A run that comes round -/

omit [DecidableEq π] in
/-- Sending changes the content and the tail, by induction on the message. -/
theorem sendWrapped_frame (msg : List UInt8) : ∀ b : Mailbox π,
    ∃ content tail, (sendWrapped msg b).1 = { b with content := content, tail := tail } := by
  induction msg with
  | nil => exact fun b => ⟨b.content, b.tail, rfl⟩
  | cons c cs ih =>
      intro b
      obtain ⟨content, tail, h⟩ := ih { b with
        content := Function.update b.content (offset (index b.tail)) c
        tail := increment b.tail }
      exact ⟨content, tail, h⟩

omit [DecidableEq π] in
/-- Receiving changes the head, by induction on the length. -/
theorem recvWrapped_frame (len : Nat) : ∀ b : Mailbox π,
    ∃ head, (recvWrapped len b).2.1 = { b with head := head } := by
  induction len with
  | zero => exact fun b => ⟨b.head, rfl⟩
  | succ len ih =>
      intro b
      obtain ⟨head, h⟩ := ih { b with head := increment b.head }
      exact ⟨head, h⟩

/-- Nobody is inside a call. -/
structure Calm (s : State π) : Prop where
  proc : ∀ p, s.proc p = none
  valid : s.box.valid = true
  unlocked : s.box.locked = false
  queue : ∀ k, s.box.queue k = []

/-- Where nobody waits, nobody is woken. -/
theorem wakeUps_calm (h : ∀ k, s.box.queue k = []) (k : Which) (all : Bool) :
    wakeUps k all s =
      { s with box := { s.box with locked := false, userNum := s.box.userNum - 1 } } := by
  have hall : (if all then unblockAll k s else s) = s := by
    split_ifs with hb
    · unfold unblockAll
      rw [h k]
      rfl
    · rfl
  have hlock : releaseLock s = { s with box := { s.box with locked := false } } := by
    have hq : ({ s.box with locked := false } : Mailbox π).queue .lock = [] := h .lock
    unfold releaseLock unblockOne
    simp only [hq]
  have hq : ({ s.box with locked := false, userNum := s.box.userNum - 1 } : Mailbox π).queue k = [] := by
    cases k with
    | lock => exact h .lock
    | full => exact h .full
    | empty => exact h .empty
  unfold wakeUps
  simp only [hall, hlock]
  unfold unblockOne
  simp only [hq]

omit [DecidableEq π] in
/-- As many bytes are received as are asked for, by induction on the length. -/
theorem recvWrapped_length (len : Nat) : ∀ b : Mailbox π, (recvWrapped len b).1.length = len := by
  induction len with
  | zero => exact fun _ => rfl
  | succ len ih => exact fun b => congrArg (· + 1) (ih _)

omit [DecidableEq π] in
/-- The copying loops touch nothing but the ring. -/
theorem transferWrapped_frame (p : π) (blocked : Nat) (b : Mailbox π) (c : Request) :
    ∃ content head tail, (transferWrapped p blocked b c).2.1 =
      { b with content := content, head := head, tail := tail } := by
  cases c with
  | send msg =>
      obtain ⟨content, tail, h⟩ := sendWrapped_frame msg b
      exact ⟨content, b.head, tail, h⟩
  | recv len =>
      obtain ⟨head, h⟩ := recvWrapped_frame len b
      exact ⟨b.content, head, b.tail, h⟩

/-- A call for which there is room or data returns at once. -/
theorem enterWrapped_calm (h : Calm s) (p : π) (hlen : (c.length : Int) ≤ lengthWrapped s.box c) :
    Calm (enterWrapped p c s).1 ∧
      ∃ b', (enterWrapped p c s).1.log = s.log ++ [(transferWrapped p 0 b' c).1] := by
  obtain ⟨s₁, hs₁⟩ : ∃ s₁, s₁ = ({ s with box :=
      { s.box with userNum := s.box.userNum + 1, locked := true } } : State π) := ⟨_, rfl⟩
  have heq : enterWrapped p c s = completeWrapped p c 0 s₁ := by
    have hlen' : ¬ (c.length : Int) > lengthWrapped s₁.box c := by
      rw [hs₁]
      cases c with
      | send msg => exact not_lt.mpr hlen
      | recv len => exact not_lt.mpr hlen
    unfold enterWrapped acquireWrapped criticalWrapped
    rw [hs₁] at hlen' ⊢
    rw [if_neg (by rw [h.valid]; simp), if_neg (by simp [h.unlocked]), if_neg hlen']
  rw [heq]
  obtain ⟨content, head, tail, hbox⟩ := transferWrapped_frame p 0 s₁.box c
  have hq : ∀ k, ({ s₁ with box := (transferWrapped p 0 s₁.box c).2.1 } : State π).box.queue k = [] := by
    intro k
    simp only [hbox]
    rw [hs₁]
    have hk := h.queue k
    cases k with
    | lock => exact hk
    | full => exact hk
    | empty => exact hk
  unfold completeWrapped
  simp only [wakeUps_calm hq]
  refine ⟨⟨fun r => ?_, ?_, rfl, fun k => ?_⟩, s₁.box, ?_⟩
  · simp only [leave, Function.update_apply]
    split_ifs
    · rfl
    · rw [hs₁]
      exact h.proc r
  · simp only [leave, hbox]
    rw [hs₁]
    exact h.valid
  · have hk := hq k
    cases k with
    | lock => exact hk
    | full => exact hk
    | empty => exact hk
  · simp only [leave, hs₁]

/-- The ring is filled with a message and emptied again. -/
theorem turn_spec {s : State Nat} (hb : Booked (s, is)) (h : Calm s)
    (hd : (sentBytes s.log).length = (receivedBytes s.log).length) (msg : List UInt8)
    (hn : msg.length ≤ maxMboxLength) :
    ∃ q, run stepWrapped [.send 0 msg, .recv 0 msg.length] (s, is) = .ok q ∧ Booked q ∧ Calm q.1 ∧
      (sentBytes q.1.log).length = (sentBytes s.log).length + msg.length ∧
      (sentBytes q.1.log).length = (receivedBytes q.1.log).length := by
  have hdiff : difference s.box = 0 := by
    rw [hb.difference, hd, sub_self]
  obtain ⟨h₁, b₁, hlog₁⟩ := enterWrapped_calm (c := .send msg) h 0 (by
    simp only [Request.length, lengthWrapped, hdiff, maxMboxLength] at hn ⊢
    rw [Int.bmod_def]
    omega)
  obtain ⟨q₁, hq₁⟩ : ∃ q₁, q₁ = ((enterWrapped 0 (.send msg) s).1,
      is ++ (enterWrapped 0 (.send msg) s).2) := ⟨_, rfl⟩
  have hstep₁ : stepWrapped (.send 0 msg) (s, is) = .ok q₁ := by
    rw [hq₁]
    exact if_pos (h.proc 0)
  have hb₁ := stepWrapped_booked hb hstep₁
  have hsent₁ : (sentBytes q₁.1.log).length = (sentBytes s.log).length + msg.length ∧
      (receivedBytes q₁.1.log).length = (receivedBytes s.log).length := by
    rw [hq₁]
    simp only [hlog₁, sentBytes_append, receivedBytes_append, transferWrapped]
    simp [sentBytes, receivedBytes]
  have h₁' : Calm q₁.1 := by
    rw [hq₁]
    exact h₁
  obtain ⟨h₂, b₂, hlog₂⟩ := enterWrapped_calm (c := .recv msg.length) h₁' 0 (by
    have hdiff₁ := hb₁.difference
    simp only [Request.length, lengthWrapped, hdiff₁]
    omega)
  obtain ⟨q₂, hq₂⟩ : ∃ q₂, q₂ = ((enterWrapped 0 (.recv msg.length) q₁.1).1,
      q₁.2 ++ (enterWrapped 0 (.recv msg.length) q₁.1).2) := ⟨_, rfl⟩
  have hstep₂ : stepWrapped (.recv 0 msg.length) q₁ = .ok q₂ := by
    rw [hq₂]
    exact if_pos (h₁'.proc 0)
  have hsent₂ : (sentBytes q₂.1.log).length = (sentBytes q₁.1.log).length ∧
      (receivedBytes q₂.1.log).length = (receivedBytes q₁.1.log).length + msg.length := by
    rw [hq₂]
    simp only [hlog₂, sentBytes_append, receivedBytes_append, transferWrapped]
    simp [sentBytes, receivedBytes, recvWrapped_length]
  refine ⟨q₂, ?_, stepWrapped_booked hb₁ hstep₂, ?_, by omega, by omega⟩
  · simp only [run, hstep₁]
    change (stepWrapped (.recv 0 msg.length) q₁ >>= _) = _
    rw [hstep₂]
    rfl
  · rw [hq₂]
    exact h₂

/-- A process fills the ring and empties it, `n` times. -/
def turns : Nat → List (Act Nat)
  | 0 => []
  | n + 1 => .send 0 (List.replicate 64 7) :: .recv 0 64 :: turns n

/-- Filling and emptying the ring `n` times, by induction on `n`. -/
theorem turns_spec (n : Nat) : ∀ (q : State Nat × List Int), Booked q → Calm q.1 →
    (sentBytes q.1.log).length = (receivedBytes q.1.log).length →
    ∃ q', run stepWrapped (turns n) q = .ok q' ∧
      (sentBytes q'.1.log).length = (sentBytes q.1.log).length + 64 * n := by
  induction n with
  | zero => exact fun q _ _ _ => ⟨q, rfl, rfl⟩
  | succ n ih =>
      intro q hb h hd
      obtain ⟨q₁, hrun₁, hb₁, h₁, hsent₁, hd₁⟩ :=
        turn_spec hb h hd (List.replicate 64 7) (by simp [maxMboxLength])
      obtain ⟨q₂, hrun₂, hsent₂⟩ := ih q₁ hb₁ h₁ hd₁
      refine ⟨q₂, ?_, ?_⟩
      · have hall : run stepWrapped ([.send 0 (List.replicate 64 7), .recv 0 64] ++ turns n) q =
            run stepWrapped (turns n) q₁ := run_append_ok hrun₁
        rw [hrun₂] at hall
        exact hall
      · rw [hsent₂, hsent₁, List.length_replicate]
        omega

/-- At the start nobody is inside a call. -/
theorem initMbox_calm : Calm (initMbox : State Nat) := by
  refine ⟨fun _ => rfl, rfl, rfl, fun k => ?_⟩
  cases k with
  | lock => rfl
  | full => rfl
  | empty => rfl

/-- After 2^25 + 1 rings full of bytes an index in front of the array has been used. -/
theorem counters_wrong_turns :
    ∃ q, run stepWrapped (turns (2 ^ 25 + 1)) (initMbox, []) = .ok q ∧ ¬ CountsRight q := by
  obtain ⟨q, hrun, hsent⟩ := turns_spec (2 ^ 25 + 1) (initMbox, []) initMbox_booked initMbox_calm rfl
  refine ⟨q, hrun, fun hright => ?_⟩
  have hshort := (counters_right_iff hrun).mp hright
  rw [hsent] at hshort
  simp [initMbox, sentBytes] at hshort

/-- A run in which a process waits for its bytes. -/
theorem counters_right_send :
    ∃ q, run stepWrapped [.recv 1 2, .send 0 [7, 8, 9], .resume 1] ((initMbox : State Nat), []) = .ok q ∧
      (CountsRight q ↔ (sentBytes q.1.log).length ≤ 2 ^ 31 + 1) ∧ q.2 = [0, 1, 2, 0, 1] := by
  obtain ⟨q, hrun, hidx⟩ := exists_of_returns (P := fun q : State Nat × List Int => q.2 = [0, 1, 2, 0, 1])
    (x := run stepWrapped [.recv 1 2, .send 0 [7, 8, 9], .resume 1] ((initMbox : State Nat), []))
    (by decide +kernel)
  exact ⟨q, hrun, counters_right_iff hrun, hidx⟩

end Mbox
