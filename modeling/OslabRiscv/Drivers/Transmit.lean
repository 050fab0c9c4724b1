import OslabRiscv.Lib.RingBuffer
import OslabRiscv.Lib.Outcome
import OslabRiscv.Mm.Paging

/-!
# The transmit ring

The driver takes the descriptor at the tail as free where its DD bit is set; the device takes
the ring as empty where head and tail are equal.  `ring_shown_iff` says in which runs the two
agree: those in which the driver never fills the last descriptor.

The state keeps the packets that `e1000_transmit` has accepted and those the device has sent.
-/

namespace E1000

open Outcome RingBuffer

def txDescs : Nat := 64

def txPktSize : Nat := 2048

/-- `E1000_TXD_STAT_DD`. -/
def statDD : BitVec 8 := 1

/-- `E1000_TXD_CMD_EOP | E1000_TXD_CMD_RS`. -/
def cmdEopRs : BitVec 8 := 1 ||| 8

/-- `struct e1000_tx_desc`. -/
structure TxDesc where
  addr : Nat
  length : Nat
  cso : Nat
  cmd : BitVec 8
  status : BitVec 8
  css : Nat
  special : Nat
  deriving DecidableEq, Repr

/-- `tx_desc_array`, `tx_pkt_buffer`, and the registers TDH and TDT. -/
structure Ring where
  desc : Nat → TxDesc
  buffer : Nat → Nat → UInt8
  tdh : Nat
  tdt : Nat

/-- Why a step is not taken: an assertion, or there is nothing for the device. -/
inductive Stop
  | assertFailed
  | idle
  deriving DecidableEq, Repr

/-! ## The code -/

/-- `e1000_configure_tx`, with `tx_pkt_buffer` at `base`. -/
def e1000ConfigureTx (base : Nat) (r : Ring) : Ring where
  desc i :=
    if i < txDescs then ⟨Mm.kva2pa (base + txPktSize * i), 0, 0, cmdEopRs, statDD, 0, 0⟩
    else r.desc i
  buffer := r.buffer
  tdh := 0
  tdt := 0

/-- `memcpy` of a packet to the start of a buffer. -/
def copyPacket (packet : List UInt8) (buffer : Nat → UInt8) (o : Nat) : UInt8 :=
  packet.getD o (buffer o)

/-- `e1000_transmit` of the bytes of a packet. -/
def e1000Transmit (base : Nat) (packet : List UInt8) (r : Ring) : Except Stop (Nat × Ring) :=
  if ¬ packet.length < txPktSize then .error .assertFailed
  else
    let tail := r.tdt
    let d := r.desc tail
    if d.status &&& statDD = 0 then .ok (0, r)
    else
      let d := { d with
        length := packet.length % 2 ^ 16
        status := d.status &&& ~~~statDD
        cmd := d.cmd ||| cmdEopRs }
      if d.addr ≠ Mm.kva2pa (base + txPktSize * tail) then .error .assertFailed
      else .ok (packet.length,
        { r with
          desc := Function.update r.desc tail d
          buffer := Function.update r.buffer tail (copyPacket packet (r.buffer tail))
          tdt := (tail + 1) % txDescs })

/-! ## The device -/

/-- The bytes a descriptor tells the device to send. -/
def packetAt (r : Ring) (i : Nat) : List UInt8 :=
  (List.range (r.desc i).length).map (r.buffer i)

/-- The device sends the packet at the head. -/
def deviceStep (r : Ring) : Except Stop (List UInt8 × Ring) :=
  if r.tdh = r.tdt then .error .idle
  else
    let d := r.desc r.tdh
    .ok (packetAt r r.tdh,
      { r with
        desc := Function.update r.desc r.tdh { d with status := d.status ||| statDD }
        tdh := (r.tdh + 1) % txDescs })

structure Net where
  ring : Ring
  accepted : List (List UInt8)
  sent : List (List UInt8)

inductive Event
  | transmit (packet : List UInt8)
  | device
  deriving DecidableEq, Repr

/-- A call that returns zero has not accepted its packet. -/
def step (base : Nat) : Event → Net → Except Stop Net
  | .transmit packet, s => do
    let (n, ring) ← e1000Transmit base packet s.ring
    .ok { s with ring, accepted := if n = 0 then s.accepted else s.accepted ++ [packet] }
  | .device, s => do
    let (packet, ring) ← deviceStep s.ring
    .ok { s with ring, sent := s.sent ++ [packet] }

def start (base : Nat) (r : Ring) : Net := ⟨e1000ConfigureTx base r, [], []⟩

/-- What callers promise of the length. -/
def Event.Fits : Event → Prop
  | .transmit packet => 0 < packet.length ∧ packet.length < txPktSize
  | .device => True

/-! ## What the ring shows -/

/-- The DD bit is clear. -/
def Clear (r : Ring) (i : Nat) : Prop := (r.desc i).status &&& statDD = 0

instance (r : Ring) (i : Nat) : Decidable (Clear r i) := inferInstanceAs (Decidable (_ = _))

/-- From TDH up to but not including TDT, around the ring. -/
def Between (r : Ring) (i : Nat) : Prop :=
  ∃ k, k < (r.tdt + txDescs - r.tdh) % txDescs ∧ i = (r.tdh + k) % txDescs

/-- Packets are sent in order, and driver and device see the same ring. -/
structure Shown (s : Net) : Prop where
  order : s.sent <+: s.accepted
  exact : ∀ i < txDescs, Clear s.ring i ↔ Between s.ring i
  visible : s.sent ≠ s.accepted → s.ring.tdh ≠ s.ring.tdt

/-- The driver leaves a descriptor free in front of the head. -/
def HasRoom (s : Net) : Event → Prop
  | .transmit _ => (s.ring.tdt + 1) % txDescs ≠ s.ring.tdh
  | .device => True

instance (s : Net) (e : Event) : Decidable (HasRoom s e) := by
  cases e with
  | transmit packet => exact inferInstanceAs (Decidable (_ ≠ _))
  | device => exact inferInstanceAs (Decidable True)

/-! ## The invariant -/

/-- Driver and device go around the ring with two counters, the packets accepted and those sent;
also a full ring has this form. -/
structure Going (base : Nat) (s : Net) : Prop where
  window : Window txDescs (packetAt s.ring) s.sent.length s.accepted.length s.accepted
  order : s.sent = s.accepted.take s.sent.length
  tdh : s.ring.tdh = s.sent.length % txDescs
  tdt : s.ring.tdt = s.accepted.length % txDescs
  clear : ∀ i < txDescs, Clear s.ring i ↔
    ∃ j, s.sent.length ≤ j ∧ j < s.accepted.length ∧ i = j % txDescs
  addr : ∀ i < txDescs, (s.ring.desc i).addr = Mm.kva2pa (base + txPktSize * i)

section Step

variable {base : Nat} {s s' : Net} {packet : List UInt8}

/-- Behind `e1000_configure_tx` nothing has been sent. -/
theorem start_going (base : Nat) (r : Ring) : Going base (start base r) where
  window := .empty txDescs _
  order := rfl
  tdh := rfl
  tdt := rfl
  clear i hi := by
    refine ⟨fun h => ?_, fun ⟨j, _, hj, _⟩ => absurd hj (Nat.not_lt_zero j)⟩
    unfold Clear start e1000ConfigureTx at h
    simp only [if_pos hi] at h
    exact absurd h (by decide)
  addr i hi := by
    unfold start e1000ConfigureTx
    simp only [if_pos hi]

/-- A packet read back from the buffer it was copied to. -/
theorem map_copyPacket (packet : List UInt8) (buffer : Nat → UInt8) :
    (List.range packet.length).map (copyPacket packet buffer) = packet := by
  refine List.ext_getElem (by simp) fun o ho ho' => ?_
  simp [copyPacket, List.getD_eq_getElem?_getD, ho']

theorem tail_lt (h : Going base s) : s.ring.tdt < txDescs := by
  rw [h.tdt]
  exact Nat.mod_lt _ (by decide)

/-- The descriptor at the tail is in use exactly if the ring is full. -/
theorem clear_tail_iff (h : Going base s) :
    Clear s.ring s.ring.tdt ↔ s.accepted.length = s.sent.length + txDescs := by
  have hle := h.window.le
  have hroom := h.window.room
  rw [h.clear _ (tail_lt h), h.tdt]
  unfold txDescs at hroom ⊢
  constructor
  · rintro ⟨j, hlo, hhi, hj⟩
    by_contra hne
    exact cell_ne hhi (by omega) hj.symm
  · intro hfull
    exact ⟨s.sent.length, le_refl _, by omega, by omega⟩

theorem done_bits (a : BitVec 8) : (a &&& ~~~statDD) &&& statDD = 0 ∧ (a ||| statDD) &&& statDD ≠ 0 := by
  revert a
  decide +kernel

/-- The ring with a packet put in at the tail. -/
def filled (packet : List UInt8) (r : Ring) : Ring where
  desc := Function.update r.desc r.tdt { r.desc r.tdt with
    length := packet.length % 2 ^ 16
    status := (r.desc r.tdt).status &&& ~~~statDD
    cmd := (r.desc r.tdt).cmd ||| cmdEopRs }
  buffer := Function.update r.buffer r.tdt (copyPacket packet (r.buffer r.tdt))
  tdh := r.tdh
  tdt := (r.tdt + 1) % txDescs

/-- A call returns zero on a full ring, and puts its packet in on every other. -/
theorem e1000Transmit_eq (h : Going base s) (hfit : packet.length < txPktSize) :
    e1000Transmit base packet s.ring = if Clear s.ring s.ring.tdt then .ok (0, s.ring)
      else .ok (packet.length, filled packet s.ring) := by
  unfold e1000Transmit
  rw [if_neg (not_not.mpr hfit)]
  by_cases hclear : Clear s.ring s.ring.tdt
  · rw [if_pos hclear]
    exact if_pos hclear
  · rw [if_neg hclear]
    refine (if_neg hclear).trans (if_neg ?_)
    exact not_not.mpr (h.addr _ (tail_lt h))

/-- The packet goes into the buffer at the tail. -/
theorem packetAt_filled (hfit : packet.length < txPktSize) (r : Ring) :
    packetAt (filled packet r) = Function.update (packetAt r) r.tdt packet := by
  funext i
  by_cases hi : i = r.tdt
  · subst hi
    have hlen : packet.length % 2 ^ 16 = packet.length := by
      unfold txPktSize at hfit
      omega
    rw [Function.update_self]
    simp only [packetAt, filled, Function.update_self, hlen]
    exact map_copyPacket packet _
  · rw [Function.update_of_ne hi]
    simp only [packetAt, filled, Function.update_of_ne hi]

/-- Its descriptor is not done. -/
theorem clear_filled (r : Ring) (i : Nat) :
    Clear (filled packet r) i ↔ i = r.tdt ∨ Clear r i := by
  unfold Clear
  by_cases hi : i = r.tdt
  · subst hi
    simp only [filled, Function.update_self, (done_bits _).1, true_or]
  · simp only [filled, Function.update_of_ne hi, hi, false_or]

/-- A packet put in. -/
theorem Going.fill (h : Going base s) (hfit : packet.length < txPktSize)
    (hroom : s.accepted.length < s.sent.length + txDescs) :
    Going base ⟨filled packet s.ring, s.accepted ++ [packet], s.sent⟩ where
  window := by
    have hput := h.window.put hroom packet
    rw [← h.tdt] at hput
    simp only [packetAt_filled hfit, List.length_append, List.length_singleton]
    exact hput
  order := by
    rw [List.take_append_of_le_length h.window.le]
    exact h.order
  tdh := h.tdh
  tdt := by
    have htdt := h.tdt
    simp only [filled, List.length_append, List.length_singleton]
    unfold txDescs at htdt ⊢
    omega
  clear i hi := by
    have hle := h.window.le
    have htdt := h.tdt
    rw [clear_filled, h.clear i hi, List.length_append, List.length_singleton]
    constructor
    · rintro (rfl | ⟨j, hlo, hhi, hj⟩)
      · exact ⟨s.accepted.length, hle, Nat.lt_succ_self _, htdt⟩
      · exact ⟨j, hlo, Nat.lt_succ_of_lt hhi, hj⟩
    · rintro ⟨j, hlo, hhi, hj⟩
      rcases Nat.lt_succ_iff_lt_or_eq.mp hhi with hlt | rfl
      · exact .inr ⟨j, hlo, hlt, hj⟩
      · exact .inl (hj.trans htdt.symm)
  addr i hi := by
    by_cases hit : i = s.ring.tdt
    · subst hit
      simp only [filled, Function.update_self]
      exact h.addr _ hi
    · simp only [filled, Function.update_of_ne hit]
      exact h.addr i hi

/-- What a call does. -/
theorem step_transmit (h : Going base s) (hfit : (Event.transmit packet).Fits) :
    (s.accepted.length = s.sent.length + txDescs ∧ step base (.transmit packet) s = .ok s) ∨
    (s.accepted.length < s.sent.length + txDescs ∧ step base (.transmit packet) s =
      .ok ⟨filled packet s.ring, s.accepted ++ [packet], s.sent⟩) := by
  have hroom := h.window.room
  rw [step, e1000Transmit_eq h hfit.2]
  by_cases hclear : Clear s.ring s.ring.tdt
  · rw [if_pos hclear]
    exact .inl ⟨(clear_tail_iff h).mp hclear, rfl⟩
  · rw [if_neg hclear]
    refine .inr ⟨lt_of_le_of_ne hroom (mt (clear_tail_iff h).mpr hclear), ?_⟩
    have hne : packet.length ≠ 0 := Nat.ne_of_gt hfit.1
    change Except.ok (⟨filled packet s.ring,
      if packet.length = 0 then s.accepted else s.accepted ++ [packet], s.sent⟩ : Net) = _
    rw [if_neg hne]

/-- The ring with the packet at the head sent. -/
def drained (r : Ring) : Ring :=
  { r with
    desc := Function.update r.desc r.tdh
      { r.desc r.tdh with status := (r.desc r.tdh).status ||| statDD }
    tdh := (r.tdh + 1) % txDescs }

theorem packetAt_drained (r : Ring) : packetAt (drained r) = packetAt r := by
  funext i
  by_cases hi : i = r.tdh
  · subst hi
    simp only [packetAt, drained, Function.update_self]
  · simp only [packetAt, drained, Function.update_of_ne hi]

/-- The descriptor that the device has sent is done. -/
theorem clear_drained (r : Ring) (i : Nat) : Clear (drained r) i ↔ i ≠ r.tdh ∧ Clear r i := by
  unfold Clear
  by_cases hi : i = r.tdh
  · subst hi
    simp only [drained, Function.update_self, (done_bits _).2, ne_eq, not_true_eq_false, false_and]
  · simp only [drained, Function.update_of_ne hi, ne_eq, hi, not_false_eq_true, true_and]

/-- What the device does: there is a packet, and it sends it. -/
theorem step_device (h : Going base s) (hstep : step base .device s = .ok s') :
    s.sent.length < s.accepted.length ∧
      s' = ⟨drained s.ring, s.accepted, s.sent ++ [packetAt s.ring s.ring.tdh]⟩ := by
  by_cases hidle : s.ring.tdh = s.ring.tdt
  · have hstop : deviceStep s.ring = .error .idle := if_pos hidle
    rw [step, hstop] at hstep
    cases hstep
  · have hsent : deviceStep s.ring = .ok (packetAt s.ring s.ring.tdh, drained s.ring) :=
      if_neg hidle
    rw [step, hsent] at hstep
    cases hstep
    refine ⟨lt_of_le_of_ne h.window.le fun heq => hidle ?_, rfl⟩
    rw [h.tdh, h.tdt, heq]

/-- The packet at the head sent. -/
theorem Going.drain (h : Going base s) (hne : s.sent.length < s.accepted.length) :
    Going base ⟨drained s.ring, s.accepted, s.sent ++ [packetAt s.ring s.ring.tdh]⟩ := by
  have hroom := h.window.room
  have hhead := h.tdh
  obtain ⟨hwin, hfirst⟩ := h.window.take hne
  exact {
    window := by
      simp only [packetAt_drained, List.length_append, List.length_singleton]
      exact hwin
    order := by
      rw [← hhead] at hfirst
      rw [List.length_append, List.length_singleton, List.take_add_one, hfirst, ← h.order]
      rfl
    tdh := by
      simp only [drained, List.length_append, List.length_singleton]
      unfold txDescs at hhead ⊢
      omega
    tdt := h.tdt
    clear := fun i hi => by
      rw [clear_drained, h.clear i hi, List.length_append, List.length_singleton]
      constructor
      · rintro ⟨hi, j, hlo, hhi, hj⟩
        refine ⟨j, ?_, hhi, hj⟩
        rcases Nat.lt_or_eq_of_le hlo with hlt | rfl
        · exact hlt
        · exact absurd (hj.trans hhead.symm) hi
      · rintro ⟨j, hlo, hhi, hj⟩
        refine ⟨fun hcon => ?_, j, by omega, hhi, hj⟩
        have hnear : j < s.sent.length + txDescs := lt_of_lt_of_le hhi hroom
        exact cell_ne hlo hnear (hhead.symm.trans (hcon.symm.trans hj))
    addr := fun i hi => by
      by_cases hih : i = s.ring.tdh
      · subst hih
        simp only [drained, Function.update_self]
        exact h.addr _ hi
      · simp only [drained, Function.update_of_ne hih]
        exact h.addr i hi }

/-- Driver and device see the same ring as long as it is not full. -/
theorem shown_iff (h : Going base s) :
    Shown s ↔ s.accepted.length < s.sent.length + txDescs := by
  have hle := h.window.le
  have hroom := h.window.room
  have htdh := h.tdh
  have htdt := h.tdt
  constructor
  · intro hs
    refine lt_of_le_of_ne hroom fun hfull => hs.visible (fun heq => ?_) ?_
    · rw [← heq] at hfull
      unfold txDescs at hfull
      omega
    · rw [htdh, htdt, hfull, Nat.add_mod_right]
  · intro hlt
    refine ⟨h.order ▸ List.take_prefix _ _, fun i hi => ?_, fun hne heq => hne ?_⟩
    · have hcount : (s.ring.tdt + txDescs - s.ring.tdh) % txDescs =
          s.accepted.length - s.sent.length := by
        unfold txDescs at hlt htdh htdt ⊢
        omega
      have hcell : ∀ k, (s.ring.tdh + k) % txDescs = (s.sent.length + k) % txDescs := by
        intro k
        unfold txDescs at htdh ⊢
        omega
      unfold Between
      simp only [hcount, hcell]
      rw [h.clear i hi]
      constructor
      · rintro ⟨j, hlo, hhi, hj⟩
        exact ⟨j - s.sent.length, by omega, by rw [hj, Nat.add_sub_of_le hlo]⟩
      · rintro ⟨k, hk, hik⟩
        exact ⟨s.sent.length + k, by omega, by omega, hik⟩
    · have hlen : s.sent.length = s.accepted.length := by
        rw [htdh, htdt] at heq
        unfold txDescs at heq hlt
        omega
      rw [h.order, hlen, List.take_length]

/-- The invariant, with what is left of the run. -/
def Running (base : Nat) (evs : List Event) (s : Net) : Prop :=
  Going base s ∧ ∀ e ∈ evs, e.Fits

/-- A step leads on to a ring that is not full exactly if it leaves room. -/
theorem step_shown {e : Event} {evs : List Event} (hJ : Running base (e :: evs) s) (hI : Shown s)
    (hstep : step base e s = .ok s') : Running base evs s' ∧ (Shown s' ↔ HasRoom s e) := by
  obtain ⟨h, hfits⟩ := hJ
  have hrest : ∀ e ∈ evs, e.Fits := fun e he => hfits e (List.mem_cons_of_mem _ he)
  have hle := h.window.le
  have htdh := h.tdh
  have htdt := h.tdt
  have hlt := (shown_iff h).mp hI
  cases e with
  | transmit packet =>
      have hfit := hfits _ List.mem_cons_self
      rcases step_transmit h hfit with ⟨hfull, _⟩ | ⟨_, heq⟩
      · omega
      · cases heq.symm.trans hstep
        have h' := h.fill hfit.2 hlt
        refine ⟨⟨h', hrest⟩, (shown_iff h').trans ?_⟩
        simp only [HasRoom, List.length_append, List.length_singleton]
        unfold txDescs at hlt htdh htdt ⊢
        omega
  | device =>
      obtain ⟨hne, rfl⟩ := step_device h hstep
      have h' := h.drain hne
      refine ⟨⟨h', hrest⟩, (shown_iff h').trans ⟨fun _ => trivial, fun _ => ?_⟩⟩
      simp only [List.length_append, List.length_singleton]
      omega

/-- A call leaves every descriptor alone that the device has not done with. -/
theorem e1000Transmit_kept {r r' : Ring} {n : Nat} (h : e1000Transmit base packet r = .ok (n, r'))
    {i : Nat} (hi : Clear r i) : r'.desc i = r.desc i ∧ r'.buffer i = r.buffer i := by
  unfold e1000Transmit at h
  by_cases hfit : packet.length < txPktSize
  · rw [if_neg (not_not.mpr hfit)] at h
    by_cases hclear : (r.desc r.tdt).status &&& statDD = 0
    · rw [if_pos hclear] at h
      cases h
      exact ⟨rfl, rfl⟩
    · rw [if_neg hclear] at h
      have hne : i ≠ r.tdt := by
        rintro rfl
        exact hclear hi
      dsimp only at h
      split at h
      · cases h
      · cases h
        simp only [Function.update_of_ne hne, and_self]
  · rw [if_pos hfit] at h
    cases h

end Step

/-- **No packet is hidden exactly in the runs in which every call leaves a descriptor free.**  No
call touches a descriptor that is still to be sent, in any run. -/
theorem ring_shown_iff (base : Nat) (r : Ring) {evs : List Event} (hfits : ∀ e ∈ evs, e.Fits)
    {t : Net} (hrun : run (step base) evs (start base r) = .ok t) :
    (∀ k s packet n r', run (step base) (evs.take k) (start base r) = .ok s →
      e1000Transmit base packet s.ring = .ok (n, r') → ∀ i, Clear s.ring i →
        r'.desc i = s.ring.desc i ∧ r'.buffer i = s.ring.buffer i) ∧
    ((∀ k s, run (step base) (evs.take k) (start base r) = .ok s → Shown s) ↔
      AllSteps (step base) HasRoom evs (start base r)) := by
  refine ⟨fun k s packet n r' _ h i hi => e1000Transmit_kept h hi, ?_⟩
  have hgoing := start_going base r
  exact run_forall_iff (J := Running base) (fun _ _ _ _ hJ hI hstep => step_shown hJ hI hstep) evs
    (start base r) t ⟨hgoing, hfits⟩ ((shown_iff hgoing).mpr (by decide : 0 < 0 + txDescs)) hrun

/-- Memory before the start. -/
def cleared : Ring := ⟨fun _ => ⟨0, 0, 0, 0, 0, 0, 0⟩, fun _ _ => 0, 0, 0⟩

/-- Two packets, the first of them sent. -/
theorem ring_shown_two : ∃ t,
    run (step 0) [.transmit [1, 2], .transmit [3], .device] (start 0 cleared) = .ok t ∧ Shown t := by
  obtain ⟨t, ht, _⟩ := exists_of_returns (P := fun _ : Net => True)
    (x := run (step 0) [.transmit [1, 2], .transmit [3], .device] (start 0 cleared)) (by decide)
  have hfits : ∀ e ∈ [Event.transmit [1, 2], .transmit [3], .device], e.Fits := by
    intro e he
    rcases List.mem_cons.mp he with rfl | he
    · exact (by decide : 0 < 2 ∧ 2 < txPktSize)
    · rcases List.mem_cons.mp he with rfl | he
      · exact (by decide : 0 < 1 ∧ 1 < txPktSize)
      · rw [List.mem_singleton.mp he]
        trivial
  exact ⟨t, ht, (ring_shown_iff 0 cleared hfits ht).2.mpr (by decide) 3 t ht⟩

/-- The ring after 64 packets, none of which has been sent: all of them are accepted, and the
device sees an empty ring. -/
theorem ring_hides_packets : ∃ t,
    run (step 0) (List.replicate 64 (.transmit [1])) (start 0 cleared) = .ok t ∧
      t.accepted.length = 64 ∧ t.sent = [] ∧ t.ring.tdh = t.ring.tdt ∧ ¬Shown t := by
  obtain ⟨t, ht, hacc, hsent, heq⟩ := exists_of_returns (ε := Stop)
    (P := fun t : Net => t.accepted.length = 64 ∧ t.sent = [] ∧ t.ring.tdh = t.ring.tdt)
    (x := run (step 0) (List.replicate 64 (.transmit [1])) (start 0 cleared)) (by decide +kernel)
  refine ⟨t, ht, hacc, hsent, heq, fun hshown => hshown.visible (fun h => ?_) heq⟩
  rw [← h, hsent] at hacc
  cases hacc

end E1000
