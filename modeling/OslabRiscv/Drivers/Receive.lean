import OslabRiscv.Drivers.Transmit

/-!
# The receive ring

The driver reads the descriptor after the tail where its DD bit is set; the device takes the ring
as full where head and tail are equal.  The driver starts with the tail one descriptor before the
head, so that the two agree in every run.
-/

namespace E1000

open RingBuffer

def rxDescs : Nat := 64

def rxPktSize : Nat := 2048

/-- `E1000_RXD_STAT_DD`. -/
def rxStatDD : BitVec 8 := 1

/-- `E1000_RXD_STAT_EOP`. -/
def rxStatEOP : BitVec 8 := 2

/-- What the driver uses of `struct e1000_rx_desc`. -/
structure RxDesc where
  addr : Nat
  length : Nat
  status : BitVec 8
  deriving DecidableEq, Repr

/-- `rx_desc_array`, `rx_pkt_buffer`, and the registers RDH and RDT. -/
structure RxRing where
  desc : Nat → RxDesc
  buffer : Nat → Nat → UInt8
  rdh : Nat
  rdt : Nat

/-! ## The code -/

/-- The arrays before the start: they are static. -/
def rxCleared : RxRing := ⟨fun _ => ⟨0, 0, 0⟩, fun _ _ => 0, 0, 0⟩

/-- `e1000_configure_rx`, with `rx_pkt_buffer` at `base`. -/
def e1000ConfigureRx (base : Nat) (r : RxRing) : RxRing where
  desc i :=
    if i < rxDescs then { r.desc i with addr := Mm.kva2pa (base + rxPktSize * i) }
    else r.desc i
  buffer := r.buffer
  rdh := 0
  rdt := rxDescs - 1

/-- `memcpy` of some bytes to the address `dst`. -/
def memcpy (dst : Nat) (bytes : List UInt8) (mem : Nat → UInt8) (a : Nat) : UInt8 :=
  if dst ≤ a then bytes.getD (a - dst) (mem a) else mem a

/-- The bytes a descriptor tells the driver to read. -/
def rxPacketAt (r : RxRing) (i : Nat) : List UInt8 :=
  (List.range (r.desc i).length).map (r.buffer i)

/-- `e1000_poll` to `rxbuffer`: zero if there is no packet. -/
def e1000Poll (base rxbuffer : Nat) (mem : Nat → UInt8) (r : RxRing) :
    Except Stop (Nat × (Nat → UInt8) × RxRing) :=
  let tail := (r.rdt + 1) % rxDescs
  let d := r.desc tail
  if d.status &&& rxStatDD = 0 then .ok (0, mem, r)
  else if d.addr ≠ Mm.kva2pa (base + rxPktSize * tail) then .error .assertFailed
  else .ok (d.length, memcpy rxbuffer (rxPacketAt r tail) mem,
    { r with
      desc := Function.update r.desc tail { d with status := d.status &&& ~~~rxStatDD }
      rdt := tail % rxDescs })

/-- `is_rx_ready`. -/
def isRxReady (r : RxRing) : Bool :=
  (r.desc ((r.rdt + 1) % rxDescs)).status &&& rxStatDD ≠ 0

/-- `is_tx_ready`. -/
def isTxReady (r : Ring) : Bool :=
  (r.desc r.tdt).status &&& statDD ≠ 0

/-! ## The device -/

/-- The device writes a packet to the descriptor at the head, and drops it on a full ring. -/
def deviceReceive (packet : List UInt8) (r : RxRing) : RxRing :=
  if r.rdh = r.rdt then r
  else
    let d := r.desc r.rdh
    { r with
      desc := Function.update r.desc r.rdh
        { d with length := packet.length % 2 ^ 16, status := d.status ||| rxStatDD ||| rxStatEOP }
      buffer := Function.update r.buffer r.rdh (copyPacket packet (r.buffer r.rdh))
      rdh := (r.rdh + 1) % rxDescs }

/-! ## The invariant -/

/-- The DD bit is set. -/
def Done (r : RxRing) (i : Nat) : Prop := (r.desc i).status &&& rxStatDD ≠ 0

instance (r : RxRing) (i : Nat) : Decidable (Done r i) := inferInstanceAs (Decidable (_ ≠ _))

/-- Device and driver go around the ring with two counters, the packets that arrived and those
that were read: `taken` of the packets `arrived` are. -/
structure Coming (base : Nat) (r : RxRing) (taken : Nat) (arrived : List (List UInt8)) : Prop where
  window : Window rxDescs (rxPacketAt r) taken arrived.length arrived
  spare : arrived.length < taken + rxDescs
  rdh : r.rdh = arrived.length % rxDescs
  rdt : r.rdt = (taken + (rxDescs - 1)) % rxDescs
  done : Marked rxDescs (Done r) taken arrived.length
  addr : ∀ i < rxDescs, (r.desc i).addr = Mm.kva2pa (base + rxPktSize * i)

section Step

variable {base taken : Nat} {r : RxRing} {arrived : List (List UInt8)} {packet : List UInt8}

/-- Behind `e1000_configure_rx` nothing has arrived. -/
theorem configureRx_coming (base : Nat) : Coming base (e1000ConfigureRx base rxCleared) 0 [] where
  window := .empty rxDescs _
  spare := by decide
  rdh := rfl
  rdt := rfl
  done := .empty fun i hi => by
    unfold Done e1000ConfigureRx rxCleared
    simp only [if_pos hi]
    decide
  addr i hi := by
    unfold e1000ConfigureRx
    simp only [if_pos hi]

/-- The next descriptor to read is that of the next packet. -/
theorem Coming.next (h : Coming base r taken arrived) : (r.rdt + 1) % rxDescs = taken % rxDescs := by
  have hrdt := h.rdt
  unfold rxDescs at hrdt ⊢
  omega

/-- The ring is full for the device exactly if one descriptor is left. -/
theorem Coming.full_iff (h : Coming base r taken arrived) :
    r.rdh = r.rdt ↔ arrived.length + 1 = taken + rxDescs := by
  have hle := h.window.le
  have hspare := h.spare
  rw [h.rdh, h.rdt]
  unfold rxDescs at hspare ⊢
  omega

/-- It is done when its packet has arrived. -/
theorem Coming.ready_iff (h : Coming base r taken arrived) :
    Done r ((r.rdt + 1) % rxDescs) ↔ taken < arrived.length := by
  rw [h.next]
  exact h.done.head_iff (by decide)

theorem status_bits (a : BitVec 8) :
    (a ||| rxStatDD ||| rxStatEOP) &&& rxStatDD ≠ 0 ∧ (a &&& ~~~rxStatDD) &&& rxStatDD = 0 := by
  revert a
  decide +kernel

/-- The ring with a packet written at the head. -/
def received (packet : List UInt8) (r : RxRing) : RxRing :=
  { r with
    desc := Function.update r.desc r.rdh { r.desc r.rdh with
      length := packet.length % 2 ^ 16
      status := (r.desc r.rdh).status ||| rxStatDD ||| rxStatEOP }
    buffer := Function.update r.buffer r.rdh (copyPacket packet (r.buffer r.rdh))
    rdh := (r.rdh + 1) % rxDescs }

/-- The packet goes into the buffer at the head. -/
theorem rxPacketAt_received (hfit : packet.length ≤ rxPktSize) (r : RxRing) :
    rxPacketAt (received packet r) = Function.update (rxPacketAt r) r.rdh packet := by
  funext i
  by_cases hi : i = r.rdh
  · subst hi
    have hlen : packet.length % 2 ^ 16 = packet.length := by
      unfold rxPktSize at hfit
      omega
    rw [Function.update_self]
    simp only [rxPacketAt, received, Function.update_self, hlen]
    exact map_copyPacket packet _
  · rw [Function.update_of_ne hi]
    simp only [rxPacketAt, received, Function.update_of_ne hi]

/-- Its descriptor is done then. -/
theorem done_received (r : RxRing) (i : Nat) :
    Done (received packet r) i ↔ i = r.rdh ∨ Done r i := by
  unfold Done
  by_cases hi : i = r.rdh
  · subst hi
    simp only [received, Function.update_self, ne_eq, (status_bits _).1, not_false_eq_true, true_or]
  · simp only [received, Function.update_of_ne hi, hi, false_or]

/-- A packet written by the device. -/
theorem Coming.put (h : Coming base r taken arrived) (hfit : packet.length ≤ rxPktSize)
    (hroom : arrived.length + 1 < taken + rxDescs) :
    Coming base (received packet r) taken (arrived ++ [packet]) where
  window := by
    have hput := h.window.put h.spare packet
    rw [← h.rdh] at hput
    simp only [rxPacketAt_received hfit, List.length_append, List.length_singleton]
    exact hput
  spare := by
    rw [List.length_append, List.length_singleton]
    exact hroom
  rdh := by
    have hrdh := h.rdh
    simp only [received, List.length_append, List.length_singleton]
    unfold rxDescs at hrdh ⊢
    omega
  rdt := h.rdt
  done := by
    rw [List.length_append, List.length_singleton]
    refine h.done.put h.window.le fun i => ?_
    rw [done_received, h.rdh]
  addr i hi := by
    by_cases hit : i = r.rdh
    · subst hit
      simp only [received, Function.update_self]
      exact h.addr _ hi
    · simp only [received, Function.update_of_ne hit]
      exact h.addr i hi

/-- What the device does with a packet. -/
theorem Coming.deviceReceive (h : Coming base r taken arrived) (packet : List UInt8) :
    (r.rdh = r.rdt ∧ deviceReceive packet r = r) ∨
    (r.rdh ≠ r.rdt ∧ arrived.length + 1 < taken + rxDescs ∧
      deviceReceive packet r = received packet r) := by
  have hspare := h.spare
  by_cases hfull : r.rdh = r.rdt
  · exact .inl ⟨hfull, if_pos hfull⟩
  · exact .inr ⟨hfull, lt_of_le_of_ne hspare (mt h.full_iff.mpr hfull), if_neg hfull⟩

/-- The ring with the packet after the tail read. -/
def polled (r : RxRing) : RxRing :=
  { r with
    desc := Function.update r.desc ((r.rdt + 1) % rxDescs)
      { r.desc ((r.rdt + 1) % rxDescs) with
        status := (r.desc ((r.rdt + 1) % rxDescs)).status &&& ~~~rxStatDD }
    rdt := (r.rdt + 1) % rxDescs % rxDescs }

theorem rxPacketAt_polled (r : RxRing) : rxPacketAt (polled r) = rxPacketAt r := by
  funext i
  by_cases hi : i = (r.rdt + 1) % rxDescs
  · subst hi
    simp only [rxPacketAt, polled, Function.update_self]
  · simp only [rxPacketAt, polled, Function.update_of_ne hi]

/-- The descriptor that was read is not done any more. -/
theorem done_polled (r : RxRing) (i : Nat) :
    Done (polled r) i ↔ i ≠ (r.rdt + 1) % rxDescs ∧ Done r i := by
  unfold Done
  by_cases hi : i = (r.rdt + 1) % rxDescs
  · subst hi
    simp only [polled, Function.update_self, (status_bits _).2, ne_eq, not_true_eq_false, false_and]
  · simp only [polled, Function.update_of_ne hi, ne_eq, hi, not_false_eq_true, true_and]

/-- The oldest packet read. -/
theorem Coming.take (h : Coming base r taken arrived) (hne : taken < arrived.length) :
    Coming base (polled r) (taken + 1) arrived where
  window := by
    rw [rxPacketAt_polled]
    exact (h.window.take hne).1
  spare := by
    have hspare := h.spare
    omega
  rdh := h.rdh
  rdt := by
    have hnext := h.next
    simp only [polled, hnext]
    unfold rxDescs
    omega
  done := by
    refine h.done.take h.window.room fun i => ?_
    rw [done_polled, h.next]
  addr i hi := by
    by_cases hit : i = (r.rdt + 1) % rxDescs
    · subst hit
      simp only [polled, Function.update_self]
      exact h.addr _ hi
    · simp only [polled, Function.update_of_ne hit]
      exact h.addr i hi

/-- What a poll does: there is no packet, or it copies the oldest one. -/
theorem Coming.e1000Poll (h : Coming base r taken arrived) (rxbuffer : Nat) (mem : Nat → UInt8) :
    (taken = arrived.length ∧ e1000Poll base rxbuffer mem r = .ok (0, mem, r)) ∨
    (∃ packet, arrived[taken]? = some packet ∧ taken < arrived.length ∧
      e1000Poll base rxbuffer mem r =
        .ok (packet.length, memcpy rxbuffer packet mem, polled r)) := by
  have hlt : (r.rdt + 1) % rxDescs < rxDescs := Nat.mod_lt _ (by decide)
  unfold E1000.e1000Poll
  by_cases hdone : Done r ((r.rdt + 1) % rxDescs)
  · have hne := h.ready_iff.mp hdone
    refine .inr ⟨_, (h.window.take hne).2, hne, ?_⟩
    rw [← h.next]
    have hlen : (rxPacketAt r ((r.rdt + 1) % rxDescs)).length =
        (r.desc ((r.rdt + 1) % rxDescs)).length := by
      unfold rxPacketAt
      rw [List.length_map, List.length_range]
    refine (if_neg hdone).trans ((if_neg ?_).trans ?_)
    · exact not_not.mpr (h.addr _ hlt)
    · rw [hlen]
      rfl
  · have hle := h.window.le
    refine .inl ⟨le_antisymm hle (not_lt.mp (mt h.ready_iff.mpr hdone)), ?_⟩
    exact if_pos (not_not.mp hdone)

end Step

/-! ## Copies one after the other -/

theorem memcpy_nil (dst : Nat) (mem : Nat → UInt8) : memcpy dst [] mem = mem := by
  funext a
  simp [memcpy]

theorem memcpy_append (dst : Nat) (l l' : List UInt8) (mem : Nat → UInt8) :
    memcpy (dst + l.length) l' (memcpy dst l mem) = memcpy dst (l ++ l') mem := by
  funext a
  unfold memcpy
  simp only [List.getD_eq_getElem?_getD]
  by_cases hlo : dst ≤ a
  · by_cases hmid : dst + l.length ≤ a
    · rw [if_pos hmid, if_pos hlo, if_pos hlo, List.getElem?_append_right (by omega),
        Nat.sub_add_eq, List.getElem?_eq_none (by omega : l.length ≤ a - dst), Option.getD_none]
    · rw [if_neg hmid, if_pos hlo, if_pos hlo, List.getElem?_append_left (by omega)]
  · rw [if_neg (by omega), if_neg hlo, if_neg hlo]

/-- What a copy put there is read back. -/
theorem map_memcpy (dst : Nat) (l : List UInt8) (mem : Nat → UInt8) :
    (List.range l.length).map (fun o => memcpy dst l mem (dst + o)) = l := by
  refine List.ext_getElem (by simp) fun o ho ho' => ?_
  simp [memcpy, List.getD_eq_getElem?_getD, ho']

end E1000
