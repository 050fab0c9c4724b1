import OslabRiscv.Drivers.Receive

/-!
# Sending and receiving packets

The calls of `kernel/net/net.c` over the two rings of the device.  A call has the kernel lock until
it returns or blocks, which keeps out the other calls and the handlers but not the device: one step
is one pass of the loop of `do_net_send`, or one poll of `do_net_recv`, and between two polls of a
call the device may send and receive.  A call is named by a number, which stands for the process
that makes it.

The state keeps the packets the device has written to the receive ring, those that calls have
read, and those that calls have put in the transmit ring.
-/

namespace Packets

open E1000 Outcome

/-- `E1000_ICR_TXQE`, in the cause and in the mask. -/
def icrTxqe : BitVec 32 := 2

/-- `E1000_ICR_RXDMT0`, in the cause and in the mask. -/
def icrRxdmt0 : BitVec 32 := 0x10

/-- The arguments of `do_net_recv`, with the memory that they point to. -/
structure RecvArgs where
  mem : Nat → UInt8
  rxbuffer : Nat
  pktNum : Nat
  pktLens : Nat → Nat

/-- A call to `do_net_recv`: its variables, and the memory as it has left it. -/
structure Recv where
  args : RecvArgs
  mem : Nat → UInt8
  pktLens : Nat → Nat
  i : Nat
  recvBytes : Nat

inductive Call
  | send (txpacket : List UInt8)
  | recv (f : Recv)

structure State where
  tx : Net
  rx : RxRing
  ims : BitVec 32
  call : Nat → Option Call
  ret : Nat → Option Nat
  sendBlockQueue : List Nat
  recvBlockQueue : List Nat
  /-- The call that goes on polling with the kernel lock. -/
  inside : Option Nat
  arrived : List (List UInt8)
  handed : List (Nat × List UInt8)
  posted : List (Nat × List UInt8)

/-! ## The code -/

/-- `do_net_send` from the top of its loop. -/
def doNetSend (txBase c : Nat) (txpacket : List UInt8) (s : State) : Except Stop State := do
  let (sendBytes, ring) ← e1000Transmit txBase txpacket s.tx.ring
  if sendBytes = 0 then
    .ok { s with tx := { s.tx with ring }, recvBlockQueue := s.recvBlockQueue ++ [c] }
  else
    .ok { s with
      tx := { s.tx with ring, accepted := s.tx.accepted ++ [txpacket] }
      ims := s.ims &&& ~~~icrTxqe
      ret := Function.update s.ret c (some sendBytes)
      posted := s.posted ++ [(c, txpacket)] }

/-- `do_net_recv` at the head of its `for` loop: it returns, or it is to poll. -/
def nextPoll (c : Nat) (f : Recv) (s : State) : State :=
  if f.i = f.args.pktNum then
    { s with
      call := Function.update s.call c (some (.recv f))
      ret := Function.update s.ret c (some f.recvBytes)
      inside := none }
  else
    { s with
      call := Function.update s.call c (some (.recv f))
      inside := some c }

/-- One poll of `do_net_recv`.  What is kept of a packet is what the caller finds in its buffer. -/
def doNetRecv (rxBase c : Nat) (f : Recv) (s : State) : Except Stop State := do
  let dst := f.args.rxbuffer + f.recvBytes
  let (curRecv, mem, rx) ← e1000Poll rxBase dst f.mem s.rx
  if curRecv = 0 then
    .ok { s with
      rx
      call := Function.update s.call c (some (.recv { f with mem }))
      recvBlockQueue := s.recvBlockQueue ++ [c]
      inside := none }
  else
    .ok (nextPoll c
      { f with
        mem
        recvBytes := f.recvBytes + curRecv
        pktLens := Function.update f.pktLens f.i curRecv
        i := f.i + 1 }
      { s with
        rx
        handed := s.handed ++ [(c, (List.range curRecv).map fun o => mem (dst + o))] })

/-- `check_net_send`. -/
def checkNetSend (s : State) : State :=
  if s.sendBlockQueue ≠ [] ∧ isTxReady s.tx.ring then
    { s with sendBlockQueue := s.sendBlockQueue.tail }
  else s

/-- `check_net_recv`. -/
def checkNetRecv (s : State) : State :=
  if s.recvBlockQueue ≠ [] ∧ isRxReady s.rx then
    { s with recvBlockQueue := s.recvBlockQueue.tail }
  else s

/-- `e1000_handle_txqe`. -/
def e1000HandleTxqe (s : State) : Except Stop State :=
  if s.sendBlockQueue = [] then .error .assertFailed else .ok (checkNetSend s)

/-- `e1000_handle_rxdmt0`. -/
def e1000HandleRxdmt0 (s : State) : Except Stop State :=
  if s.recvBlockQueue = [] then .error .assertFailed else .ok (checkNetRecv s)

/-- `net_handle_irq`. -/
def netHandleIrq (icr : BitVec 32) (s : State) : Except Stop State := do
  let icrValue := icr &&& s.ims
  let s ← if icrValue &&& icrTxqe ≠ 0 then e1000HandleTxqe s else .ok s
  if icrValue &&& icrRxdmt0 ≠ 0 then e1000HandleRxdmt0 s else .ok s

/-! ## The steps -/

inductive Event
  | send (c : Nat) (txpacket : List UInt8)
  | recv (c : Nat) (args : RecvArgs)
  | resume (c : Nat)
  | timer
  | interrupt (icr : BitVec 32)
  | deviceSends
  | deviceReceives (packet : List UInt8)

/-- The call has begun, has not returned and is in no queue. -/
def Runnable (s : State) (c : Nat) : Prop :=
  s.ret c = none ∧ c ∉ s.recvBlockQueue ∧ c ∉ s.sendBlockQueue

instance (s : State) (c : Nat) : Decidable (Runnable s c) :=
  inferInstanceAs (Decidable (_ ∧ _ ∧ _))

/-- A call to `do_net_send` begins. -/
def callNetSend (txBase c : Nat) (txpacket : List UInt8) (s : State) : Except Stop State :=
  match s.call c with
  | some _ => .error .idle
  | none =>
    doNetSend txBase c txpacket { s with call := Function.update s.call c (some (.send txpacket)) }

/-- A call to `do_net_recv` begins. -/
def callNetRecv (c : Nat) (args : RecvArgs) (s : State) : Except Stop State :=
  match s.call c with
  | some _ => .error .idle
  | none => .ok (nextPoll c ⟨args, args.mem, args.pktLens, 0, 0⟩ s)

/-- A call goes on, with its next poll or after `do_block`, behind which `do_net_send` has
`e1000_enable_txqe`. -/
def resume (txBase rxBase c : Nat) (s : State) : Except Stop State :=
  if Runnable s c then
    match s.call c with
    | none => .error .idle
    | some (.send txpacket) => doNetSend txBase c txpacket { s with ims := s.ims ||| icrTxqe }
    | some (.recv f) => doNetRecv rxBase c f s
  else .error .idle

/-- The device sends the packet at the head. -/
def deviceSends (txBase : Nat) (s : State) : Except Stop State := do
  let tx ← E1000.step txBase .device s.tx
  .ok { s with tx }

/-- The device takes a packet from the wire. -/
def deviceReceives (packet : List UInt8) (s : State) : State :=
  { s with
    rx := deviceReceive packet s.rx
    arrived := if s.rx.rdh = s.rx.rdt then s.arrived else s.arrived ++ [packet] }

/-- Who has to wait for the kernel lock. -/
def Free (s : State) : Event → Prop
  | .resume c => s.inside = none ∨ s.inside = some c
  | .deviceSends | .deviceReceives _ => True
  | _ => s.inside = none

instance (s : State) (e : Event) : Decidable (Free s e) := by
  cases e with
  | resume c => exact inferInstanceAs (Decidable (_ ∨ _))
  | deviceSends | deviceReceives packet => exact inferInstanceAs (Decidable True)
  | _ => exact inferInstanceAs (Decidable (_ = _))

-- `handle_irq_timer` has the two checks, commented out
def act (txBase rxBase : Nat) : Event → State → Except Stop State
  | .send c txpacket, s => callNetSend txBase c txpacket s
  | .recv c args, s => callNetRecv c args s
  | .resume c, s => resume txBase rxBase c s
  | .timer, s => .ok (checkNetRecv (checkNetSend s))
  | .interrupt icr, s => netHandleIrq icr s
  | .deviceSends, s => deviceSends txBase s
  | .deviceReceives packet, s => .ok (deviceReceives packet s)

def step (txBase rxBase : Nat) (e : Event) (s : State) : Except Stop State :=
  if Free s e then act txBase rxBase e s else .error .idle

/-- The state after `e1000_init`, with `tx_pkt_buffer` and `rx_pkt_buffer` at these addresses. -/
def start (txBase rxBase : Nat) : State where
  tx := E1000.start txBase cleared
  rx := e1000ConfigureRx rxBase rxCleared
  ims := icrRxdmt0
  call _ := none
  ret _ := none
  sendBlockQueue := []
  recvBlockQueue := []
  inside := none
  arrived := []
  handed := []
  posted := []

/-- What callers promise, lengths and their sum being an `int`; and the size of the packets that
the device writes. -/
def Event.Fits : Event → Prop
  | .send _ txpacket => 0 < txpacket.length ∧ txpacket.length < 2 ^ 31
  | .recv _ args => args.pktNum * rxPktSize < 2 ^ 31
  | .deviceReceives packet => 0 < packet.length ∧ packet.length ≤ rxPktSize
  | _ => True

instance (e : Event) : Decidable e.Fits := by
  cases e with
  | send _ txpacket => exact inferInstanceAs (Decidable (_ ∧ _))
  | recv _ args => exact inferInstanceAs (Decidable (_ < _))
  | deviceReceives packet => exact inferInstanceAs (Decidable (_ ∧ _))
  | _ => exact inferInstanceAs (Decidable True)

/-! ## What calls are given -/

/-- The packets that a log has for a call. -/
def entries (c : Nat) (log : List (Nat × List UInt8)) : List (List UInt8) :=
  (log.filter (·.1 = c)).map Prod.snd

/-- The buffer holds the packets one after the other, and `pkt_lens` their lengths; all else is as
the call found it. -/
structure Recv.Has (f : Recv) (packets : List (List UInt8)) : Prop where
  mem : f.mem = memcpy f.args.rxbuffer packets.flatten f.args.mem
  pktLens : f.pktLens = fun j => (packets.map List.length).getD j (f.args.pktLens j)
  i : f.i = packets.length
  recvBytes : f.recvBytes = packets.flatten.length

/-- What a call has done, and what it returns. -/
def Served (s : State) (c : Nat) : Prop :=
  match s.call c with
  | none => entries c s.handed = [] ∧ entries c s.posted = [] ∧ s.ret c = none
  | some (.send txpacket) =>
    entries c s.handed = [] ∧
      (s.ret c = none ∧ entries c s.posted = [] ∨
        s.ret c = some txpacket.length ∧ entries c s.posted = [txpacket])
  | some (.recv f) =>
    entries c s.posted = [] ∧ f.Has (entries c s.handed) ∧ f.recvBytes < 2 ^ 31 ∧
      (s.ret c = none ∧ f.i < f.args.pktNum ∨ s.ret c = some f.recvBytes ∧ f.i = f.args.pktNum)

/-! ## The invariant -/

/-- The rings with what went through them. -/
structure Shared (txBase rxBase : Nat) (s : State) : Prop where
  tx : Going txBase s.tx
  rx : Coming rxBase s.rx s.handed.length s.arrived
  order : s.handed.map Prod.snd = s.arrived.take s.handed.length
  fits : ∀ packet ∈ s.arrived, 0 < packet.length ∧ packet.length ≤ rxPktSize
  posted : s.tx.accepted = s.posted.map Prod.snd
  noSender : s.sendBlockQueue = []

/-- What the caller promised, or the driver has checked, with a bound of what has been received. -/
def Promised : Option Call → Prop
  | none => True
  | some (.send txpacket) => 0 < txpacket.length ∧ txpacket.length < txPktSize
  | some (.recv f) => f.args.pktNum * rxPktSize < 2 ^ 31 ∧ f.recvBytes ≤ f.i * rxPktSize

def Kept (s : State) (c : Nat) : Prop := Served s c ∧ Promised (s.call c)

/-- The invariant. -/
def Inv (txBase rxBase : Nat) (s : State) : Prop := Shared txBase rxBase s ∧ ∀ c, Kept s c

section Step

variable {txBase rxBase c c' k : Nat} {s s' : State} {f : Recv} {packet txpacket : List UInt8}
  {log : List (Nat × List UInt8)}

/-- One packet more for its call. -/
theorem entries_append : entries c (log ++ [(c, packet)]) = entries c log ++ [packet] := by
  simp [entries]

/-- The packets of another call. -/
theorem entries_append_ne (hne : c' ≠ c) : entries c' (log ++ [(c, packet)]) = entries c' log := by
  simp [entries, hne.symm]

/-- What a call has done is a matter of its own variables and of its own packets. -/
theorem Kept.congr (h : Kept s c) (hcall : s'.call c = s.call c) (hret : s'.ret c = s.ret c)
    (hhanded : entries c s'.handed = entries c s.handed)
    (hposted : entries c s'.posted = entries c s.posted) : Kept s' c := by
  unfold Kept Served at h ⊢
  rw [hcall, hret, hhanded, hposted]
  exact h

/-- The buffer of a call holds nothing yet. -/
theorem Recv.Has.start (args : RecvArgs) :
    Recv.Has ⟨args, args.mem, args.pktLens, 0, 0⟩ [] where
  mem := (memcpy_nil _ _).symm
  pktLens := rfl
  i := rfl
  recvBytes := rfl

/-- A packet copied behind those that are there. -/
theorem Recv.Has.put {packets : List (List UInt8)} (h : f.Has packets) (packet : List UInt8) :
    Recv.Has { f with
      mem := memcpy (f.args.rxbuffer + f.recvBytes) packet f.mem
      recvBytes := f.recvBytes + packet.length
      pktLens := Function.update f.pktLens f.i packet.length
      i := f.i + 1 } (packets ++ [packet]) where
  mem := by
    change memcpy _ packet f.mem = _
    rw [h.mem, h.recvBytes, memcpy_append, List.flatten_append, List.flatten_singleton]
  pktLens := by
    change Function.update f.pktLens f.i packet.length = _
    have hlen : (packets.map List.length).length = f.i := by rw [List.length_map, h.i]
    funext j
    rw [h.pktLens, List.map_append, List.map_singleton]
    simp only [List.getD_eq_getElem?_getD]
    rcases lt_trichotomy j f.i with hlt | rfl | hgt
    · rw [Function.update_of_ne hlt.ne, List.getElem?_append_left (by omega)]
    · rw [Function.update_self, ← hlen, List.getElem?_concat_length, Option.getD_some]
    · have hlen' : (packets.map List.length ++ [packet.length]).length ≤ j := by
        rw [List.length_append, hlen, List.length_singleton]
        omega
      rw [Function.update_of_ne hgt.ne', List.getElem?_eq_none (by omega),
        List.getElem?_eq_none hlen']
  i := by
    change f.i + 1 = _
    rw [h.i, List.length_append, List.length_singleton]
  recvBytes := by
    change f.recvBytes + packet.length = _
    rw [h.recvBytes, List.flatten_append, List.length_append, List.flatten_singleton]

/-- A packet read for a call, the rings being as they should. -/
theorem Shared.poll (h : Shared txBase rxBase s) (hne : s.handed.length < s.arrived.length)
    (hget : s.arrived[s.handed.length]? = some packet) :
    Shared txBase rxBase
      { s with rx := polled s.rx, handed := s.handed ++ [(c, packet)] } where
  tx := h.tx
  rx := by
    rw [List.length_append, List.length_singleton]
    exact h.rx.take hne
  order := by
    rw [List.map_append, List.length_append, List.length_singleton, List.take_add_one, hget,
      h.order]
    rfl
  fits := h.fits
  posted := h.posted
  noSender := h.noSender

/-- What a call receives is counted in an `int`. -/
theorem Promised.recvBytes_lt (h : Promised (some (.recv f))) (hle : f.i ≤ f.args.pktNum) :
    f.recvBytes < 2 ^ 31 :=
  lt_of_le_of_lt (h.2.trans (Nat.mul_le_mul_right rxPktSize hle)) h.1

/-- A call that has received some packets returns or polls again. -/
theorem nextPoll_inv (hs : Shared txBase rxBase s) (hothers : ∀ c', c' ≠ c → Kept s c')
    (hposted : entries c s.posted = []) (hret : s.ret c = none)
    (hhas : f.Has (entries c s.handed)) (hprom : Promised (some (.recv f)))
    (hle : f.i ≤ f.args.pktNum) : Inv txBase rxBase (nextPoll c f s) := by
  have hlt := hprom.recvBytes_lt hle
  unfold nextPoll
  by_cases hi : f.i = f.args.pktNum
  · rw [if_pos hi]
    refine ⟨⟨hs.tx, hs.rx, hs.order, hs.fits, hs.posted, hs.noSender⟩, fun c' => ?_⟩
    by_cases hc : c' = c
    · subst hc
      unfold Kept Served
      simp only [Function.update_self]
      exact ⟨⟨hposted, hhas, hlt, .inr ⟨trivial, hi⟩⟩, hprom⟩
    · exact (hothers c' hc).congr (Function.update_of_ne hc ..) (Function.update_of_ne hc ..) rfl rfl
  · rw [if_neg hi]
    refine ⟨⟨hs.tx, hs.rx, hs.order, hs.fits, hs.posted, hs.noSender⟩, fun c' => ?_⟩
    by_cases hc : c' = c
    · subst hc
      unfold Kept Served
      simp only [Function.update_self]
      exact ⟨⟨hposted, hhas, hlt, .inl ⟨hret, lt_of_le_of_ne hle hi⟩⟩, hprom⟩
    · exact (hothers c' hc).congr (Function.update_of_ne hc ..) rfl rfl rfl

/-- One poll of a call to `do_net_recv`. -/
theorem doNetRecv_spec (hs : Shared txBase rxBase s) (hothers : ∀ c', c' ≠ c → Kept s c')
    (hposted : entries c s.posted = []) (hret : s.ret c = none)
    (hhas : f.Has (entries c s.handed)) (hprom : Promised (some (.recv f)))
    (hlt : f.i < f.args.pktNum) :
    Holds (· = .idle) (Inv txBase rxBase) (doNetRecv rxBase c f s) := by
  unfold doNetRecv
  dsimp only
  rcases hs.rx.e1000Poll (f.args.rxbuffer + f.recvBytes) f.mem with
    ⟨_, hpoll⟩ | ⟨packet, hget, hne, hpoll⟩
  · rw [hpoll]
    refine ⟨⟨hs.tx, hs.rx, hs.order, hs.fits, hs.posted, hs.noSender⟩, fun c' => ?_⟩
    by_cases hc : c' = c
    · subst hc
      unfold Kept Served
      simp only [Function.update_self]
      exact ⟨⟨hposted, hhas, hprom.recvBytes_lt hlt.le, .inl ⟨hret, hlt⟩⟩, hprom⟩
    · exact (hothers c' hc).congr (Function.update_of_ne hc ..) rfl rfl rfl
  · have hfits := hs.fits packet (List.mem_of_getElem? hget)
    have hpos : packet.length ≠ 0 := Nat.ne_of_gt hfits.1
    rw [hpoll]
    simp only [bind, Except.bind, if_neg hpos]
    rw [map_memcpy]
    refine nextPoll_inv (hs.poll hne hget) (fun c' hc => ?_) hposted hret ?_ ⟨hprom.1, ?_⟩ hlt
    · exact (hothers c' hc).congr rfl rfl (entries_append_ne hc) rfl
    · rw [entries_append]
      exact hhas.put packet
    · have hle := hprom.2
      change f.recvBytes + packet.length ≤ (f.i + 1) * rxPktSize
      rw [Nat.add_mul, Nat.one_mul]
      exact Nat.add_le_add hle hfits.2

/-- The rest of a call to `do_net_send`. -/
theorem doNetSend_spec (hs : Shared txBase rxBase s) (hothers : ∀ c', c' ≠ c → Kept s c')
    (hcall : s.call c = some (.send txpacket)) (hprom : Promised (s.call c))
    (hhanded : entries c s.handed = []) (hposted : entries c s.posted = [])
    (hret : s.ret c = none) :
    Holds (· = .idle) (Inv txBase rxBase) (doNetSend txBase c txpacket s) := by
  rw [hcall] at hprom
  unfold doNetSend
  rw [e1000Transmit_eq hs.tx hprom.2]
  by_cases hclear : Clear s.tx.ring s.tx.ring.tdt
  · rw [if_pos hclear]
    refine ⟨⟨hs.tx, hs.rx, hs.order, hs.fits, hs.posted, hs.noSender⟩, fun c' => ?_⟩
    by_cases hc : c' = c
    · subst hc
      unfold Kept Served
      simp only [hcall]
      exact ⟨⟨hhanded, .inl ⟨hret, hposted⟩⟩, hprom⟩
    · exact (hothers c' hc).congr rfl rfl rfl rfl
  · have hroom : s.tx.accepted.length < s.tx.sent.length + txDescs :=
      lt_of_le_of_ne hs.tx.window.room (mt (clear_tail_iff hs.tx).mpr hclear)
    have hpos : txpacket.length ≠ 0 := Nat.ne_of_gt hprom.1
    rw [if_neg hclear]
    simp only [bind, Except.bind, if_neg hpos]
    refine ⟨⟨hs.tx.fill hprom.2 hroom, hs.rx, hs.order, hs.fits, ?_, hs.noSender⟩, fun c' => ?_⟩
    · change s.tx.accepted ++ [txpacket] = _
      rw [hs.posted, List.map_append]
      rfl
    · by_cases hc : c' = c
      · subst hc
        unfold Kept Served
        simp only [hcall, Function.update_self, entries_append, hposted]
        exact ⟨⟨hhanded, .inr ⟨trivial, rfl⟩⟩, hprom⟩
      · exact (hothers c' hc).congr rfl (Function.update_of_ne hc ..) rfl (entries_append_ne hc)

/-- The invariant holds behind `e1000_init`. -/
theorem start_inv (txBase rxBase : Nat) : Inv txBase rxBase (start txBase rxBase) :=
  ⟨⟨start_going txBase cleared, configureRx_coming rxBase, rfl, fun _ h => absurd h List.not_mem_nil,
    rfl, rfl⟩, fun _ => ⟨⟨rfl, rfl, rfl⟩, trivial⟩⟩

/-- Nobody waits to send, so nobody is woken. -/
theorem checkNetSend_eq (h : Shared txBase rxBase s) : checkNetSend s = s :=
  if_neg fun hne => hne.1 h.noSender

/-- Waking a receiver keeps the invariant. -/
theorem checkNetRecv_inv (h : Inv txBase rxBase s) : Inv txBase rxBase (checkNetRecv s) := by
  obtain ⟨hs, hkept⟩ := h
  unfold checkNetRecv
  by_cases hwake : s.recvBlockQueue ≠ [] ∧ isRxReady s.rx
  · rw [if_pos hwake]
    exact ⟨⟨hs.tx, hs.rx, hs.order, hs.fits, hs.posted, hs.noSender⟩,
      fun c => (hkept c).congr rfl rfl rfl rfl⟩
  · rw [if_neg hwake]
    exact ⟨hs, hkept⟩

/-- The steps at which an assertion fails: a packet that is too long for `e1000_transmit`; and an
interrupt whose handler finds nobody in its queue, which that of the senders never has. -/
def Trips (s : State) : Event → Prop
  | .send c txpacket => s.inside = none ∧ s.call c = none ∧ txPktSize ≤ txpacket.length
  | .interrupt icr => s.inside = none ∧
      (icr &&& s.ims &&& icrTxqe ≠ 0 ∨ icr &&& s.ims &&& icrRxdmt0 ≠ 0 ∧ s.recvBlockQueue = [])
  | _ => False

/-- A call to send fails its assertion, has begun before, or keeps the invariant. -/
theorem callNetSend_spec (h : Inv txBase rxBase s) (hfit : (Event.send c txpacket).Fits)
    (hinside : s.inside = none) :
    (Trips s (.send c txpacket) ∧ callNetSend txBase c txpacket s = .error .assertFailed) ∨
    (¬Trips s (.send c txpacket) ∧
      Holds (· = .idle) (Inv txBase rxBase) (callNetSend txBase c txpacket s)) := by
  obtain ⟨hs, hkept⟩ := h
  have hc := hkept c
  unfold Kept Served at hc
  unfold callNetSend Trips
  cases hcall : s.call c with
  | some _ =>
      refine .inr ⟨fun hcon => ?_, rfl⟩
      cases hcall.symm.trans hcon.2.1
  | none =>
      simp only [hcall] at hc
      obtain ⟨⟨hhanded, hposted, hret⟩, _⟩ := hc
      by_cases hlong : txPktSize ≤ txpacket.length
      · refine .inl ⟨⟨hinside, hcall, hlong⟩, ?_⟩
        unfold doNetSend e1000Transmit
        rw [if_pos (not_lt.mpr hlong)]
        rfl
      · have hs' : Shared txBase rxBase
            { s with call := Function.update s.call c (some (.send txpacket)) } :=
          ⟨hs.tx, hs.rx, hs.order, hs.fits, hs.posted, hs.noSender⟩
        refine .inr ⟨fun hcon => hlong hcon.2.2, ?_⟩
        refine doNetSend_spec hs' (fun c' hne => ?_) (Function.update_self ..) ?_ hhanded hposted hret
        · exact (hkept c').congr (Function.update_of_ne hne ..) rfl rfl rfl
        · change Promised (Function.update s.call c _ c)
          rw [Function.update_self]
          exact ⟨hfit.1, not_le.mp hlong⟩

/-- A call to receive keeps the invariant. -/
theorem callNetRecv_spec (h : Inv txBase rxBase s) {args : RecvArgs}
    (hfit : args.pktNum * rxPktSize < 2 ^ 31) :
    Holds (· = .idle) (Inv txBase rxBase) (callNetRecv c args s) := by
  obtain ⟨hs, hkept⟩ := h
  have hc := hkept c
  unfold Kept Served at hc
  unfold callNetRecv
  cases hcall : s.call c with
  | some _ => exact rfl
  | none =>
      simp only [hcall] at hc
      obtain ⟨⟨hhanded, hposted, hret⟩, _⟩ := hc
      refine nextPoll_inv hs (fun c' _ => hkept c') hposted hret ?_ ⟨hfit, Nat.zero_le _⟩
        (Nat.zero_le _)
      rw [hhanded]
      exact .start args

/-- A call that goes on keeps the invariant. -/
theorem resume_spec (h : Inv txBase rxBase s) :
    Holds (· = .idle) (Inv txBase rxBase) (resume txBase rxBase c s) := by
  obtain ⟨hs, hkept⟩ := h
  have hc := hkept c
  unfold Kept Served at hc
  unfold resume
  by_cases hrun : Runnable s c
  · rw [if_pos hrun]
    have hret := hrun.1
    match hcall : s.call c with
    | none => exact rfl
    | some (.send txpacket) =>
        simp only [hcall, hret] at hc
        obtain ⟨⟨hhanded, ⟨_, hposted⟩ | ⟨hcon, _⟩⟩, hprom⟩ := hc
        · have hs' : Shared txBase rxBase { s with ims := s.ims ||| icrTxqe } :=
            ⟨hs.tx, hs.rx, hs.order, hs.fits, hs.posted, hs.noSender⟩
          refine doNetSend_spec hs' (fun c' _ => ?_) hcall ?_ hhanded hposted hret
          · exact (hkept c').congr rfl rfl rfl rfl
          · change Promised (s.call c)
            rw [hcall]
            exact hprom
        · cases hcon
    | some (.recv f) =>
        simp only [hcall, hret] at hc
        obtain ⟨⟨hposted, hhas, _, ⟨_, hlt⟩ | ⟨hcon, _⟩⟩, hprom⟩ := hc
        · exact doNetRecv_spec hs (fun c' _ => hkept c') hposted hret hhas hprom hlt
        · cases hcon
  · rw [if_neg hrun]
    exact rfl

/-- The device takes the packet at the head. -/
theorem deviceSends_spec (h : Inv txBase rxBase s) :
    Holds (· = .idle) (Inv txBase rxBase) (deviceSends txBase s) := by
  obtain ⟨hs, hkept⟩ := h
  unfold deviceSends
  cases hstep : E1000.step txBase .device s.tx with
  | error e =>
      by_cases hidle : s.tx.ring.tdh = s.tx.ring.tdt
      · have hstop : E1000.step txBase .device s.tx = .error .idle := by
          unfold E1000.step
          simp only [deviceStep, if_pos hidle]
          rfl
        cases hstop.symm.trans hstep
        exact rfl
      · unfold E1000.step at hstep
        simp only [deviceStep, if_neg hidle] at hstep
        cases hstep
  | ok tx =>
      obtain ⟨hne, rfl⟩ := step_device hs.tx hstep
      exact ⟨⟨hs.tx.drain hne, hs.rx, hs.order, hs.fits, hs.posted, hs.noSender⟩,
        fun c => (hkept c).congr rfl rfl rfl rfl⟩

/-- A packet from the wire joins the ring or is dropped. -/
theorem deviceReceives_inv (h : Inv txBase rxBase s)
    (hfit : 0 < packet.length ∧ packet.length ≤ rxPktSize) :
    Inv txBase rxBase (deviceReceives packet s) := by
  obtain ⟨hs, hkept⟩ := h
  refine ⟨?_, fun c => (hkept c).congr rfl rfl rfl rfl⟩
  unfold deviceReceives
  rcases hs.rx.deviceReceive packet with ⟨hfull, heq⟩ | ⟨hfull, hroom, heq⟩
  · rw [heq, if_pos hfull]
    exact hs
  · rw [heq, if_neg hfull]
    exact {
      tx := hs.tx
      rx := hs.rx.put hfit.2 hroom
      order := by
        rw [List.take_append_of_le_length hs.rx.window.le]
        exact hs.order
      fits := fun p hp => by
        rcases List.mem_append.mp hp with hp | hp
        · exact hs.fits p hp
        · rw [List.mem_singleton.mp hp]
          exact hfit
      posted := hs.posted
      noSender := hs.noSender }

/-- An interrupt fails its assertion or keeps the invariant. -/
theorem netHandleIrq_spec (h : Inv txBase rxBase s) (hinside : s.inside = none) (icr : BitVec 32) :
    (Trips s (.interrupt icr) ∧ netHandleIrq icr s = .error .assertFailed) ∨
    (¬Trips s (.interrupt icr) ∧ Holds (· = .idle) (Inv txBase rxBase) (netHandleIrq icr s)) := by
  unfold netHandleIrq Trips
  by_cases htx : icr &&& s.ims &&& icrTxqe ≠ 0
  · refine .inl ⟨⟨hinside, .inl htx⟩, ?_⟩
    simp only [if_pos htx, e1000HandleTxqe, if_pos h.1.noSender]
    rfl
  · simp only [if_neg htx, bind, Except.bind]
    by_cases hrx : icr &&& s.ims &&& icrRxdmt0 ≠ 0
    · rw [if_pos hrx]
      unfold e1000HandleRxdmt0
      by_cases hempty : s.recvBlockQueue = []
      · exact .inl ⟨⟨hinside, .inr ⟨hrx, hempty⟩⟩, if_pos hempty⟩
      · rw [if_neg hempty]
        refine .inr ⟨?_, checkNetRecv_inv h⟩
        rintro ⟨_, hcon | ⟨_, hcon⟩⟩
        · exact htx hcon
        · exact hempty hcon
    · rw [if_neg hrx]
      refine .inr ⟨?_, h⟩
      rintro ⟨_, hcon | ⟨hcon, _⟩⟩
      · exact htx hcon
      · exact hrx hcon

/-- What a step does that need not wait: an assertion fails, it is not taken, or it keeps the
invariant. -/
theorem act_spec (h : Inv txBase rxBase s) {e : Event} (hfit : e.Fits) (hfree : Free s e) :
    (Trips s e ∧ act txBase rxBase e s = .error .assertFailed) ∨
    (¬Trips s e ∧ Holds (· = .idle) (Inv txBase rxBase) (act txBase rxBase e s)) := by
  cases e with
  | send c txpacket => exact callNetSend_spec h hfit hfree
  | recv c args => exact .inr ⟨id, callNetRecv_spec h hfit⟩
  | resume c => exact .inr ⟨id, resume_spec h⟩
  | timer =>
      refine .inr ⟨id, ?_⟩
      change Inv txBase rxBase (checkNetRecv (checkNetSend s))
      rw [checkNetSend_eq h.1]
      exact checkNetRecv_inv h
  | interrupt icr => exact netHandleIrq_spec h hfree icr
  | deviceSends => exact .inr ⟨id, deviceSends_spec h⟩
  | deviceReceives packet => exact .inr ⟨id, deviceReceives_inv h hfit⟩

/-- A step that waits for the lock trips nothing. -/
theorem Trips.free {e : Event} (h : Trips s e) : Free s e := by
  cases e with
  | send c txpacket => exact h.1
  | interrupt icr => exact h.1
  | _ => exact h.elim

/-- What a step does. -/
theorem step_spec (h : Inv txBase rxBase s) {e : Event} (hfit : e.Fits) :
    (Trips s e ∧ step txBase rxBase e s = .error .assertFailed) ∨
    (¬Trips s e ∧ Holds (· = .idle) (Inv txBase rxBase) (step txBase rxBase e s)) := by
  unfold step
  by_cases hfree : Free s e
  · rw [if_pos hfree]
    exact act_spec h hfit hfree
  · rw [if_neg hfree]
    exact .inr ⟨mt Trips.free hfree, rfl⟩

/-- The run lemma, by induction. -/
theorem run_inv {evs : List Event} (hfits : ∀ e ∈ evs, e.Fits)
    (hrun : run (step txBase rxBase) evs (start txBase rxBase) = .ok s) : Inv txBase rxBase s := by
  have hstep : ∀ (s : State) (e : Event) (s' : State), Inv txBase rxBase s → e.Fits →
      step txBase rxBase e s = .ok s' → Inv txBase rxBase s' := by
    intro s e s' h hfit hok
    rcases step_spec h hfit with ⟨_, herr⟩ | ⟨_, hholds⟩
    · cases herr.symm.trans hok
    · exact hholds.of_ok hok
  exact run_invariant (C := fun _ e => e.Fits) hstep evs _ s (start_inv txBase rxBase)
    (.of_forall hfits _) hrun

end Step

variable {txBase rxBase : Nat} {evs : List Event} {s : State}

/-- **Packets are handed out in the order of their arrival, each to one call, and none is lost.**
In every run, what the calls have read is a prefix of what the device has written, which is less
than a ring ahead; what the device has sent is a prefix of what the calls have posted; and every
call has in its buffer what it has read, or has posted its packet once when it returns. -/
theorem packets_in_order (hfits : ∀ e ∈ evs, e.Fits)
    (hrun : run (step txBase rxBase) evs (start txBase rxBase) = .ok s) :
    (s.handed.map Prod.snd <+: s.arrived ∧ s.arrived.length < s.handed.length + rxDescs) ∧
    s.tx.sent <+: s.posted.map Prod.snd ∧ ∀ c, Served s c := by
  obtain ⟨hs, hkept⟩ := run_inv hfits hrun
  refine ⟨⟨?_, hs.rx.spare⟩, ?_, fun c => (hkept c).1⟩
  · rw [hs.order]
    exact List.take_prefix _ _
  · rw [← hs.posted, hs.tx.order]
    exact List.take_prefix _ _

/-- **The assertions that fail** are those of the handlers, at every `TXQE` and at an `RXDMT0` with
nobody in the queue of receivers, and the one of `e1000_transmit` at a packet of `TX_PKT_SIZE` bytes
or more; no other assertion of the driver fails in any run. -/
theorem assertion_fails_iff (hfits : ∀ e ∈ evs, e.Fits)
    (hrun : run (step txBase rxBase) evs (start txBase rxBase) = .ok s) {e : Event} (hfit : e.Fits) :
    step txBase rxBase e s = .error .assertFailed ↔ Trips s e := by
  rcases step_spec (run_inv hfits hrun) hfit with ⟨htrips, herr⟩ | ⟨hnot, hholds⟩
  · exact ⟨fun _ => htrips, fun _ => herr⟩
  · refine ⟨fun hcon => ?_, fun hcon => absurd hcon hnot⟩
    rw [hcon] at hholds
    cases hholds

/-- A call for two packets that has to wait for the second one, and a packet sent meanwhile. -/
def sample : List Event :=
  [.deviceReceives [1, 2], .recv 0 ⟨fun _ => 0, 100, 2, fun _ => 0⟩, .resume 0, .resume 0, .send 1 [9],
    .deviceReceives [3], .timer, .deviceSends, .resume 0]

/-- The sample run is one that its callers promise. -/
theorem sample_fits : ∀ e ∈ sample, e.Fits := by
  decide

/-- The call of the sample has both packets, and returns three. -/
theorem packets_in_order_sample : ∃ t, run (step 0 0) sample (start 0 0) = .ok t ∧
    t.ret 0 = some 3 ∧ t.tx.sent = [[9]] ∧ Served t 0 := by
  obtain ⟨t, ht, hret, hsent⟩ := exists_of_returns (ε := Stop)
    (P := fun t : State => t.ret 0 = some 3 ∧ t.tx.sent = [[9]])
    (x := run (step 0 0) sample (start 0 0)) (by decide +kernel)
  exact ⟨t, ht, hret, hsent, (packets_in_order sample_fits ht).2.2 0⟩

/-- After the sample nobody waits, so that the next packet that raises an interrupt is fatal. -/
theorem assertion_fails_sample : ∃ t, run (step 0 0) sample (start 0 0) = .ok t ∧
    step 0 0 (.interrupt 0x10) t = .error .assertFailed := by
  obtain ⟨t, ht, hims, hqueue, hinside⟩ := exists_of_returns (ε := Stop)
    (P := fun t : State => t.ims = 0x10 ∧ t.recvBlockQueue = [] ∧ t.inside = none)
    (x := run (step 0 0) sample (start 0 0)) (by decide +kernel)
  refine ⟨t, ht, (assertion_fails_iff sample_fits ht (e := .interrupt 0x10) trivial).mpr
    ⟨hinside, .inr ⟨?_, hqueue⟩⟩⟩
  rw [hims]
  decide

end Packets
