import Mathlib.Data.Int.ModEq
import Mathlib.Data.List.Forall2
import OsdevArchive.Lib.RingBuffer
import OsdevArchive.Lib.Runs
import OsdevArchive.Minirighi.Inet

/-!
The ethernet receive ring (`network/eth.c`, `recv_arp_packet` of `network/arp.c`).
The card's interrupt is a trap gate, so a reader may run between any two of the
three updates that `store_eth_packet` makes; the readers themselves run with
interrupts off. The frames that were stored and the packets that were delivered
are recorded beside the ring.
-/

namespace OsdevArchive.Minirighi.EthRing

open OsdevArchive.Lib.RingBuffer OsdevArchive.Lib.Runs OsdevArchive.Minirighi.Inet

/-- `ETH_RECV_BUF_DIM`. -/
abbrev ethRecvBufDim : Nat := 10

instance : NeZero ethRecvBufDim := ⟨by decide⟩

def ethFrameLen : Nat := 1514

def ethHeadLen : Nat := 14

def ethFrameIp : Nat := 0x0800

def ethFrameArp : Nat := 0x0806

/-- `phys_packet_t`. -/
structure PhysPacket where
  length : Nat
  data : List Byte

/-- A frame as the card's driver passes it on: it has a header, and the driver
drops what is longer than `ETH_FRAME_LEN`. -/
structure Frame where
  bytes : List Byte
  head : ethHeadLen ≤ bytes.length
  fits : bytes.length ≤ ethFrameLen

/-- `ntohs(packet->type)`. -/
def frameType (data : List Byte) : Nat := ntohs (loadWord (ofBytes data) 12)

/-- `eth_buf_t`. -/
structure Ring where
  packet : Fin ethRecvBufDim → PhysPacket
  read : Fin ethRecvBufDim
  write : Fin ethRecvBufDim
  count : Int

/-- Where the interrupt handler stands. -/
inductive Handler where
  | idle
  /-- The packet and its length are stored; next is the write pointer. -/
  | stored
  /-- The write pointer is updated; next is the counter. -/
  | advanced
  deriving DecidableEq

/-- The two readers, `recv_eth_packet` and `recv_arp_packet`. -/
inductive Reader where
  | eth
  | arp
  deriving DecidableEq

/-- The packet type that a reader waits for. -/
def Reader.frameType : Reader → Nat
  | .eth => ethFrameIp
  | .arp => ethFrameArp

/-- How much a reader copies, given its buffer and the length of the packet. For
ARP the source computes `length - sizeof(ethernet_t) + 1`. -/
def Reader.copyLen (len length : Nat) : Reader → Nat
  | .eth => min len length
  | .arp => min len (wrap (sub32 length 15 + 1))

/-- Where a reader starts to copy. -/
def Reader.offset : Reader → Nat
  | .eth => 0
  | .arp => ethHeadLen

/-- A packet that was handed to a reader with a buffer of `len` bytes. -/
structure Delivery where
  reader : Reader
  len : Nat
  bytes : List Byte

/-- The ring, the handler, the frames that were stored and the packets that were
delivered. -/
structure St where
  ring : Ring
  handler : Handler
  arrived : List Frame
  delivered : List Delivery

/-- `eth_init_buffer` zeroes the ring. -/
def ethInitBuffer : St where
  ring := ⟨fun _ => ⟨0, List.replicate ethFrameLen 0⟩, 0, 0, 0⟩
  handler := .idle
  arrived := []
  delivered := []

/-- An interrupt with a frame, the next update of the handler, or one pass of a
reader through its loop. -/
inductive Act where
  | arrive (frame : Frame)
  | handler
  | recv (reader : Reader) (len : Nat)

/-- The types that `to_eth_layer` stores; it drops all others. -/
def Frame.Known (frame : Frame) : Prop :=
  frameType frame.bytes = ethFrameIp ∨ frameType frame.bytes = ethFrameArp

instance (frame : Frame) : Decidable frame.Known :=
  inferInstanceAs (Decidable (_ ∨ _))

/-- `to_eth_layer`, and of `store_eth_packet` the copy of the packet and of its
length. -/
def St.arrive (s : St) (frame : Frame) : St :=
  if frame.Known then
    let len := min frame.bytes.length ethFrameLen
    let old := s.ring.packet s.ring.write
    let new : PhysPacket := ⟨len, frame.bytes.take len ++ old.data.drop len⟩
    { s with
      ring := { s.ring with packet := Function.update s.ring.packet s.ring.write new }
      handler := .stored
      arrived := s.arrived ++ [frame] }
  else s

/-- The remaining two updates of `store_eth_packet`. -/
def St.handle (s : St) : Option St :=
  match s.handler with
  | .idle => none
  | .stored =>
      some { s with ring := { s.ring with write := advance s.ring.write }, handler := .advanced }
  | .advanced =>
      let ring :=
        if s.ring.count ≤ ethRecvBufDim then { s.ring with count := s.ring.count + 1 }
        else { s.ring with read := advance s.ring.read }
      some { s with ring, handler := .idle }

/-- One pass of a reader: it takes the packet at `read` if that is one of its own,
and else sleeps or calls `schedule`. -/
def St.recv (s : St) (reader : Reader) (len : Nat) : St :=
  let packet := s.ring.packet s.ring.read
  if s.ring.count = 0 then s
  else if EthRing.frameType packet.data = reader.frameType then
    let len' := reader.copyLen len packet.length
    { s with
      ring := { s.ring with read := advance s.ring.read, count := s.ring.count - 1 }
      delivered := s.delivered ++ [⟨reader, len, (packet.data.drop reader.offset).take len'⟩] }
  else s

/-- The card raises no interrupt while its handler runs. -/
def St.step (s : St) : Act → Option St
  | .arrive frame => if s.handler = .idle then some (s.arrive frame) else none
  | .handler => s.handle
  | .recv reader len => some (s.recv reader len)

/-- A delivery hands out a frame: to the reader of its type, and as much of it as
fits the reader's buffer, for ARP without the ethernet header. -/
def Delivers (d : Delivery) (frame : Frame) : Prop :=
  frameType frame.bytes = d.reader.frameType ∧
    d.bytes = (frame.bytes.drop d.reader.offset).take d.len

/-- The frames that are in the ring: all that arrived but were not yet delivered. -/
def St.pending (s : St) : List Frame := s.arrived.drop s.delivered.length

/-- What the ring promises: the counter is within the capacity and, between two
interrupts, equals `write - read` around the ring; the deliveries are the frames
that arrived, in order and without loss, and the counter tells how many are left. -/
structure Sound (s : St) : Prop where
  nonneg : 0 ≤ s.ring.count
  capacity : s.ring.count ≤ ethRecvBufDim
  congruent : s.handler = .idle →
    s.ring.count ≡ s.ring.write.val - s.ring.read.val [ZMOD ethRecvBufDim]
  delivered : List.Forall₂ Delivers s.delivered (s.arrived.take s.delivered.length)
  left : s.handler = .idle → s.ring.count = s.pending.length

/-- The condition on a step: no packet is stored into a full ring. -/
def Spare (s : St) : Act → Prop
  | .arrive frame => frame.Known → s.ring.count < ethRecvBufDim
  | .handler | .recv .. => True

instance (s : St) : ∀ act, Decidable (Spare s act)
  | .arrive frame => inferInstanceAs (Decidable (frame.Known → _))
  | .handler | .recv .. => inferInstanceAs (Decidable True)

/-- A slot holds a frame: its length, and its bytes before what an older packet
left there. -/
def HoldsFrame (packet : PhysPacket) (frame : Frame) : Prop :=
  packet.length = frame.bytes.length ∧ ∃ stale, packet.data = frame.bytes ++ stale

/-- Whether a packet is stored that is not yet counted. -/
@[simp] def Handler.uncounted : Handler → Nat
  | .idle => 0
  | .stored | .advanced => 1

/-- Whether the write pointer is ahead of the counter. -/
@[simp] def Handler.ahead : Handler → Nat
  | .idle | .stored => 0
  | .advanced => 1

/-- The invariant while the ring never overflows. -/
structure Inv (s : St) : Prop where
  holds : Holds HoldsFrame s.ring.packet s.ring.read s.pending
  taken : s.delivered.length ≤ s.arrived.length
  delivered : List.Forall₂ Delivers s.delivered (s.arrived.take s.delivered.length)
  nonneg : 0 ≤ s.ring.count
  count : s.ring.count + s.handler.uncounted = s.pending.length
  write : s.ring.write = cell s.ring.read (s.ring.count.toNat + s.handler.ahead)
  room : s.pending.length ≤ ethRecvBufDim

variable {s s' : St} {act : Act} {frame : Frame} {reader : Reader} {len : Nat}

theorem Inv.ethInitBuffer : Inv ethInitBuffer where
  holds := Holds.nil
  taken := Nat.le_refl _
  delivered := .nil
  nonneg := Int.le_refl 0
  count := rfl
  write := rfl
  room := Nat.zero_le _

theorem HoldsFrame.copied {packet : PhysPacket} (h : HoldsFrame packet frame) (reader : Reader)
    (len : Nat) :
    (packet.data.drop reader.offset).take (reader.copyLen len packet.length) =
      (frame.bytes.drop reader.offset).take len := by
  obtain ⟨hlen, stale, hdata⟩ := h
  have hhead : 14 ≤ frame.bytes.length := frame.head
  have hfits : frame.bytes.length ≤ 1514 := frame.fits
  have hcopy : reader.copyLen len packet.length =
      min len (frame.bytes.drop reader.offset).length := by
    cases reader with
    | eth => simp [Reader.copyLen, Reader.offset, hlen]
    | arp =>
        have hsub : wrap (sub32 packet.length 15 + 1) = frame.bytes.length - 14 := by
          unfold sub32 wrap
          omega
        simp [Reader.copyLen, Reader.offset, hsub, ethHeadLen]
  have hoffset : reader.offset ≤ frame.bytes.length := by
    cases reader with
    | eth => exact Nat.zero_le _
    | arp => exact hhead
  rw [hdata, List.drop_append_of_le_length hoffset, hcopy,
    List.take_append_of_le_length (Nat.min_le_right _ _), ← List.take_take, List.take_length]

theorem HoldsFrame.frameType {packet : PhysPacket} (h : HoldsFrame packet frame) :
    EthRing.frameType packet.data = EthRing.frameType frame.bytes := by
  obtain ⟨-, stale, hdata⟩ := h
  have hhead : 14 ≤ frame.bytes.length := frame.head
  unfold EthRing.frameType loadWord ofBytes
  rw [hdata, List.getD_append _ _ _ _ (by omega), List.getD_append _ _ _ _ (by omega)]

theorem Inv.arrive (h : Inv s) (hidle : s.handler = .idle)
    (hspare : frame.Known → s.ring.count < ethRecvBufDim) : Inv (s.arrive frame) := by
  have hcount := h.count
  have hwrite := h.write
  simp only [hidle, Handler.uncounted, Handler.ahead] at hcount hwrite
  have hnonneg := h.nonneg
  unfold St.arrive
  split
  · rename_i hknown
    have hroom : s.pending.length < ethRecvBufDim := by
      have := hspare hknown
      omega
    have hpending : (s.arrived ++ [frame]).drop s.delivered.length = s.pending ++ [frame] :=
      List.drop_append_of_le_length h.taken
    have hlen : min frame.bytes.length ethFrameLen = frame.bytes.length :=
      Nat.min_eq_left frame.fits
    have hcell : s.ring.write = cell s.ring.read s.pending.length := by
      rw [hwrite]
      congr 1
      omega
    constructor
    · simp only [St.pending, hpending, hcell, hlen, List.take_length]
      exact h.holds.push hroom ⟨rfl, _, rfl⟩
    · simpa using Nat.le_succ_of_le h.taken
    · simpa [List.take_append_of_le_length h.taken] using h.delivered
    · exact hnonneg
    · show s.ring.count + 1 = (((s.arrived ++ [frame]).drop s.delivered.length).length : Int)
      rw [hpending, List.length_append, List.length_singleton]
      omega
    · exact hwrite
    · show ((s.arrived ++ [frame]).drop s.delivered.length).length ≤ ethRecvBufDim
      rw [hpending, List.length_append, List.length_singleton]
      exact hroom
  · exact h

theorem Inv.handle (h : Inv s) (hs : s.handle = some s') : Inv s' := by
  have hcount := h.count
  have hwrite := h.write
  have hroom := h.room
  have hnonneg := h.nonneg
  unfold St.handle at hs
  split at hs
  · cases hs
  · rename_i hstored
    simp only [hstored, Handler.uncounted, Handler.ahead] at hcount hwrite
    obtain rfl := Option.some.inj hs
    constructor
    · exact h.holds
    · exact h.taken
    · exact h.delivered
    · exact hnonneg
    · exact hcount
    · simp only [hwrite, advance_cell]
      rfl
    · exact hroom
  · rename_i hadvanced
    simp only [hadvanced, Handler.uncounted, Handler.ahead] at hcount hwrite
    have hbelow : s.ring.count ≤ ethRecvBufDim := by omega
    simp only [if_pos hbelow] at hs
    obtain rfl := Option.some.inj hs
    constructor
    · exact h.holds
    · exact h.taken
    · exact h.delivered
    · show 0 ≤ s.ring.count + 1
      omega
    · show s.ring.count + 1 + 0 = (s.pending.length : Int)
      omega
    · simp only [hwrite, Handler.ahead]
      congr 1
      omega
    · exact hroom

/-- What is pending begins with the frame at `read` when the counter is not zero. -/
theorem Inv.pending_cons (h : Inv s) (hcount : s.ring.count ≠ 0) :
    ∃ frame rest, s.pending = frame :: rest := by
  have hlen := h.count
  have hnonneg := h.nonneg
  cases hp : s.pending with
  | nil =>
      rw [hp, List.length_nil] at hlen
      omega
  | cons frame rest => exact ⟨frame, rest, rfl⟩

theorem Inv.recv (h : Inv s) (reader : Reader) (len : Nat) : Inv (s.recv reader len) := by
  unfold St.recv
  dsimp only
  split
  · exact h
  rename_i hcount
  split
  · rename_i htype
    obtain ⟨frame, rest, hp⟩ := h.pending_cons hcount
    have hholds := h.holds
    rw [hp] at hholds
    have hhead : HoldsFrame (s.ring.packet s.ring.read) frame := hholds.head
    have hnth : s.arrived[s.delivered.length]? = some frame := by
      have hdrop := congrArg (fun l => l[0]?) hp
      simpa [St.pending] using hdrop
    have hrest : s.arrived.drop (s.delivered.length + 1) = rest := by
      have htail := congrArg List.tail hp
      simpa [St.pending] using htail
    have hlen := h.count
    have hroom := h.room
    rw [hp, List.length_cons] at hlen hroom
    have hnonneg := h.nonneg
    constructor
    · simp only [St.pending, List.length_append, List.length_singleton, hrest]
      exact hholds.pop
    · have hlt := (List.getElem?_eq_some_iff.mp hnth).1
      rw [List.length_append, List.length_singleton]
      exact hlt
    · simp only [List.length_append, List.length_singleton]
      rw [List.take_add_one, hnth]
      refine List.rel_append h.delivered (.cons ⟨?_, ?_⟩ .nil)
      · exact hhead.frameType.symm.trans htype
      · exact hhead.copied reader len
    · show 0 ≤ s.ring.count - 1
      omega
    · simp only [St.pending, List.length_append, List.length_singleton, hrest]
      push_cast at hlen
      omega
    · simp only [h.write, cell_advance]
      congr 1
      omega
    · simp only [St.pending, List.length_append, List.length_singleton, hrest]
      omega
  · exact h

theorem Inv.step (h : Inv s) (hspare : Spare s act) (hs : s.step act = some s') : Inv s' := by
  cases act with
  | arrive frame =>
      simp only [St.step] at hs
      split at hs
      · rename_i hidle
        obtain rfl := Option.some.inj hs
        exact h.arrive hidle hspare
      · cases hs
  | handler => exact h.handle hs
  | recv reader len =>
      obtain rfl := Option.some.inj hs
      exact h.recv reader len

theorem Inv.sound (h : Inv s) : Sound s where
  nonneg := h.nonneg
  capacity := by
    have hcount := h.count
    have hroom := h.room
    omega
  congruent hidle := by
    have hwrite := h.write
    have hnonneg := h.nonneg
    simp only [hidle, Handler.ahead, Nat.add_zero] at hwrite
    have hval : s.ring.write.val = (s.ring.read.val + s.ring.count.toNat) % ethRecvBufDim := by
      rw [hwrite]
      simp [cell]
    rw [hval, Int.ModEq]
    push_cast
    omega
  delivered := h.delivered
  left hidle := by
    have hcount := h.count
    simpa [hidle] using hcount

/-- In every interleaving of interrupts and readers in which no packet arrives at
a full ring, the counter stays within the capacity and agrees with the two
indices, and the readers get the stored frames in order, each once. -/
theorem ring_delivers {acts : List Act}
    (h : Run (Guarded Spare (Computes St.step)) ethInitBuffer acts s) : Sound s := by
  have hinv : Inv s := h.guarded_invariant (I := Inv)
    (fun _ _ _ hi hspare hstep => hi.step hspare hstep) Inv.ethInitBuffer
  exact hinv.sound

/-- An IP frame with one byte of data. -/
def ipFrame (b : Byte) : Frame :=
  ⟨List.replicate 12 0 ++ [8, 0, b], by simp [ethHeadLen], by simp [ethFrameLen]⟩

/-- A packet arrives and the handler runs to its end. -/
def arrival (b : Byte) : List Act := [.arrive (ipFrame b), .handler, .handler]

/-- Two packets, the first of which is read while the second is being stored. -/
def overlapping : List Act :=
  arrival 1 ++ [.arrive (ipFrame 2), .recv .eth 1514, .handler, .handler]

set_option maxRecDepth 8000 in
theorem ring_delivers_overlapping :
    ∃ s, overlapping.foldlM (checked Spare St.step) ethInitBuffer = some s ∧ Sound s ∧
      s.pending.length = 1 := by
  obtain ⟨s, hs, hleft⟩ : ∃ s, overlapping.foldlM (checked Spare St.step) ethInitBuffer = some s ∧
      s.pending.length = 1 := ⟨_, rfl, rfl⟩
  exact ⟨s, hs, ring_delivers (Run.of_foldlM_checked hs), hleft⟩

/-- Eleven packets in a row: the counter exceeds the capacity of the ring, and the
oldest packet is overwritten while `read` still points to it. -/
theorem ring_overflows :
    ¬ ∀ acts s, Run (Computes St.step) ethInitBuffer acts s → Sound s := by
  intro hsound
  obtain ⟨s, hs, hcount⟩ : ∃ s, ((List.range 11).flatMap fun i => arrival i).foldlM
      St.step ethInitBuffer = some s ∧ s.ring.count = 11 := ⟨_, rfl, rfl⟩
  have hcapacity := (hsound _ s (Run.of_foldlM hs)).capacity
  rw [hcount] at hcapacity
  exact absurd hcapacity (by decide)

end OsdevArchive.Minirighi.EthRing
