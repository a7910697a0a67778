import OsdevArchive.Lib.Runs
import OsdevArchive.Minirighi.IpStore

/-!
The queue of received IP packets (`network/ip.c`, `udp_recvfrom` of `network/udp.c`).
The queue, its counter and its timestamp are changed under `ip_mutex`, so what runs
from `DOWN` to `UP` is one step, unless `wait_event` can see the middle of it: that
reads the counter and the timestamp with interrupts off but without the mutex.
`push_ip_packet` is therefore split, and wakes the receivers after `UP`. A receiver
that waits enables the interrupts between `add_wait_queue` and `sleep_task`.
-/

namespace OsdevArchive.Minirighi.IpQueue

open OsdevArchive.Lib.Runs OsdevArchive.Minirighi.Inet OsdevArchive.Minirighi.Ip

/-- `MAX_IP_PACKETS`. -/
def maxIpPackets : Nat := 64

/-- A packet in the queue, with the number of its arrival. -/
structure Entry where
  arrival : Nat
  packet : Mem

/-- What a receiver asks for: a packet of a protocol with `ip_recvfrom`, or one for a
port with `udp_recvfrom`. -/
inductive Request where
  | ip (protocol : Nat) (sock : SockAddr)
  | udp (sock : SockAddr)

/-- The test of the receivers' loops. -/
def Request.wants (host : Arp.Host) (packet : Mem) : Request → Bool
  | .ip protocol sock => decide (IpFinds host protocol sock packet)
  | .udp sock => decide (UdpFinds host sock packet)

/-- The variables of a call. `seen` is how many packets had arrived when it last looked
through the queue. -/
structure Call where
  request : Request
  peek : Bool
  dontwait : Bool
  timestamp : BitVec 32
  seen : Nat

/-- Where a receiver stands. -/
inductive Pc where
  | idle
  /-- About to take the mutex and to look through the queue. -/
  | looking (call : Call)
  /-- It found nothing: about to test the condition of `wait_event`. -/
  | looked (call : Call)
  /-- The condition failed: about to call `sleep_task`. -/
  | window (call : Call)
  | asleep (call : Call)

/-- How far the push that holds the mutex is. -/
inductive Phase where
  /-- No push holds it. -/
  | free
  /-- The counter is updated; next is the queue. -/
  | counted (packet : Mem)
  /-- The queue is updated; next is the timestamp. -/
  | queued

/-- A packet that a receiver removed. -/
structure Departure where
  entry : Entry
  request : Request

structure St (R : Type*) where
  ipPacketQueue : List Entry
  ipPacketCount : Int
  ipTimestamp : BitVec 32
  ipWait : List R
  phase : Phase
  /-- The pushes that have still to wake the receivers. -/
  wakes : Nat
  pc : R → Pc
  /-- How many packets were accepted so far. -/
  arrivals : Nat
  departures : List Departure

variable {R : Type*}

/-- The boot state. -/
def St.boot : St R := ⟨[], 0, 0, [], .free, 0, fun _ => .idle, 0, []⟩

section Steps

variable [DecidableEq R]

def St.goto (s : St R) (r : R) (pc : Pc) : St R := { s with pc := Function.update s.pc r pc }

@[simp] theorem St.goto_pc_self (s : St R) (r : R) (pc : Pc) : (s.goto r pc).pc r = pc :=
  Function.update_self _ _ _

theorem St.goto_pc_of_ne (s : St R) {r u : R} (pc : Pc) (h : u ≠ r) :
    (s.goto r pc).pc u = s.pc u :=
  Function.update_of_ne h _ _

/-- The condition for which a receiver looks through the queue. -/
def St.HasNew (s : St R) (call : Call) : Prop :=
  s.ipPacketCount ≠ 0 ∧ call.timestamp ≠ s.ipTimestamp

instance (s : St R) (call : Call) : Decidable (s.HasNew call) :=
  inferInstanceAs (Decidable (_ ∧ _))

/-- The first packet of the queue that a request wants. -/
def St.find (s : St R) (host : Arp.Host) (request : Request) : Option Entry :=
  s.ipPacketQueue.find? fun e => request.wants host e.packet

inductive Act (R : Type*) where
  /-- `push_ip_packet` up to the counter. `mem` tells whether there is memory for the
  copy. -/
  | push (packet : Mem) (mem : Bool)
  /-- Its `add_queue`. `mem` tells whether there is memory for the node. -/
  | add (mem : Bool)
  /-- The timestamp and `UP`. `MAX` reads the tick counter a second time if it is the
  greater one. -/
  | stamp (ticks ticks' : BitVec 32)
  /-- `wakeup_queue`. -/
  | wake
  | popIpPacket (arrival : Nat)
  | ipClearQueue
  | call (r : R) (request : Request) (peek dontwait : Bool)
  /-- One pass of the receiver's loop under the mutex. -/
  | look (r : R)
  /-- The test of `wait_event`, and `add_wait_queue` if it fails. -/
  | check (r : R) (mem : Bool)
  /-- `sleep_task`. -/
  | sleep (r : R)

/-- The counter is only incremented while the queue is not full; else the head is
deleted. -/
def St.push (s : St R) (packet : Mem) : St R :=
  if s.ipPacketCount < maxIpPackets then
    { s with ipPacketCount := s.ipPacketCount + 1, phase := .counted packet }
  else { s with ipPacketQueue := s.ipPacketQueue.tail, phase := .counted packet }

/-- The result of `add_queue` is not checked. -/
def St.add (s : St R) (packet : Mem) (mem : Bool) : St R :=
  { s with
    ipPacketQueue :=
      if mem then s.ipPacketQueue ++ [⟨s.arrivals, packet⟩] else s.ipPacketQueue
    phase := .queued
    arrivals := s.arrivals + 1 }

def St.stamp (s : St R) (ticks ticks' : BitVec 32) : St R :=
  { s with
    ipTimestamp := if s.ipTimestamp + 1 < ticks then ticks' else s.ipTimestamp + 1
    phase := .free
    wakes := s.wakes + 1 }

/-- `wakeup_task` does nothing to a task that does not sleep. -/
def Pc.wake : Pc → Pc
  | .asleep call => .looked call
  | pc => pc

/-- All receivers in the wait queue are woken and removed from it. -/
def St.wake (s : St R) : St R :=
  { s with
    wakes := s.wakes - 1
    ipWait := []
    pc := fun r => if r ∈ s.ipWait then (s.pc r).wake else s.pc r }

def St.popIpPacket (s : St R) (arrival : Nat) : St R :=
  if s.ipPacketQueue.any fun e => e.arrival = arrival then
    { s with
      ipPacketQueue := s.ipPacketQueue.eraseP fun e => e.arrival = arrival
      ipPacketCount := s.ipPacketCount - 1 }
  else s

def St.ipClearQueue (s : St R) : St R := { s with ipPacketQueue := [], ipPacketCount := 0 }

/-- The packet that was found is removed, unless the receiver only peeks. -/
def St.take (s : St R) (host : Arp.Host) (call : Call) (e : Entry) : St R :=
  if call.peek then s
  else
    { s with
      ipPacketQueue := s.ipPacketQueue.eraseP fun e => call.request.wants host e.packet
      ipPacketCount := s.ipPacketCount - 1
      departures := s.departures ++ [⟨e, call.request⟩] }

def St.look (s : St R) (host : Arp.Host) (r : R) (call : Call) : St R :=
  let nothing : Call → Pc := fun call => if call.dontwait then .idle else .looked call
  if s.HasNew call then
    match s.find host call.request with
    | some e => (s.take host call e).goto r .idle
    | none => s.goto r (nothing { call with timestamp := s.ipTimestamp, seen := s.arrivals })
  else s.goto r (nothing call)

def St.check (s : St R) (r : R) (call : Call) (mem : Bool) : St R :=
  if s.HasNew call then s.goto r (.looking call)
  else
    { s with ipWait := if mem then s.ipWait ++ [r] else s.ipWait }.goto r (.window call)

/-- One step. What runs under the mutex waits while a push holds it. -/
def St.step (host : Arp.Host) (s : St R) : Act R → Option (St R)
  | .push packet mem =>
      match s.phase with
      | .free => some (if mem then s.push packet else s)
      | _ => none
  | .add mem =>
      match s.phase with
      | .counted packet => some (s.add packet mem)
      | _ => none
  | .stamp ticks ticks' =>
      match s.phase with
      | .queued => some (s.stamp ticks ticks')
      | _ => none
  | .wake => if 0 < s.wakes then some s.wake else none
  | .popIpPacket arrival =>
      match s.phase with
      | .free => some (s.popIpPacket arrival)
      | _ => none
  | .ipClearQueue =>
      match s.phase with
      | .free => some s.ipClearQueue
      | _ => none
  | .call r request peek dontwait =>
      match s.pc r with
      | .idle => some (s.goto r (.looking ⟨request, peek, dontwait, 0, 0⟩))
      | _ => none
  | .look r =>
      match s.phase, s.pc r with
      | .free, .looking call => some (s.look host r call)
      | _, _ => none
  | .check r mem =>
      match s.pc r with
      | .looked call => some (s.check r call mem)
      | _ => none
  | .sleep r =>
      match s.pc r with
      | .window call => some (s.goto r (.asleep call))
      | _ => none

end Steps

/-- A push holds the mutex. -/
def Phase.held : Phase → Bool
  | .free => false
  | .counted _ | .queued => true

/-- What is counted but not yet in the queue. -/
def Phase.uncounted : Phase → Nat
  | .counted _ => 1
  | .free | .queued => 0

/-- What the queue promises in every state. While no push is under way the counter is
the number of packets; a packet that an earlier receiver wanted leaves after its own
one only if it arrived after it; and a receiver that sleeps while a packet is queued
that it has not seen will be woken. -/
structure Sound (host : Arp.Host) (s : St R) : Prop where
  count : s.phase.held = false → s.ipPacketCount = s.ipPacketQueue.length
  bound : s.ipPacketCount ≤ maxIpPackets
  order : s.departures.Pairwise fun first later =>
    first.request.wants host later.entry.packet → first.entry.arrival < later.entry.arrival
  served : ∀ r call, s.pc r = .asleep call →
    (∃ e ∈ s.ipPacketQueue, call.seen ≤ e.arrival) →
      r ∈ s.ipWait ∧ (s.phase.held ∨ 0 < s.wakes)

/-- What it promises of a step: a push onto a full queue drops the oldest packet, and
only that, each push changes the timestamp, and a receiver goes to sleep only if it has
seen all packets, unless a push is under way. -/
def StepSound (s s' : St R) : Act R → Prop
  | .push _ mem => s'.ipPacketQueue =
      if mem ∧ s.ipPacketQueue.length = maxIpPackets then s.ipPacketQueue.tail
      else s.ipPacketQueue
  | .add _ => ∃ packet, s.phase = .counted packet ∧
      s'.ipPacketQueue = s.ipPacketQueue ++ [⟨s.arrivals, packet⟩]
  | .stamp _ _ => s'.ipTimestamp ≠ s.ipTimestamp
  | .check r _ => ∀ call, s'.pc r = .window call → s.phase.held = false →
      ∀ e ∈ s.ipPacketQueue, e.arrival < call.seen
  | _ => True

/-- The condition on a step: `add_queue` finds memory for the node, here and in the wait
queue; the timestamp does not overflow, nor the clock while it is read twice; and no
wakeup comes between `add_wait_queue` and `sleep_task`. -/
def Meets (s : St R) : Act R → Prop
  | .add mem => mem = true
  | .stamp ticks ticks' => s.ipTimestamp.toNat + 1 < 2 ^ 32 ∧ ticks ≤ ticks'
  | .check _ mem => mem = true
  | .sleep r => r ∈ s.ipWait
  | _ => True

/-! ## The queue -/

/-- The counter and the order of the queue. -/
structure QueueInv (host : Arp.Host) (s : St R) : Prop where
  count : s.ipPacketCount = s.ipPacketQueue.length + s.phase.uncounted
  room : s.ipPacketQueue.length + s.phase.uncounted ≤ maxIpPackets
  sorted : s.ipPacketQueue.Pairwise fun first later => first.arrival < later.arrival
  fresh : ∀ e ∈ s.ipPacketQueue, e.arrival < s.arrivals
  left : ∀ d ∈ s.departures, d.entry.arrival < s.arrivals
  later : ∀ d ∈ s.departures, ∀ e ∈ s.ipPacketQueue,
    d.request.wants host e.packet → d.entry.arrival < e.arrival
  order : s.departures.Pairwise fun first later =>
    first.request.wants host later.entry.packet → first.entry.arrival < later.entry.arrival

variable {host : Arp.Host} {s s' : St R} {r : R} {call : Call} {packet : Mem} {e : Entry}

theorem QueueInv.boot : QueueInv host (St.boot : St R) := by
  constructor <;> simp [St.boot, Phase.uncounted, maxIpPackets]

theorem QueueInv.push (h : QueueInv host s) (hfree : s.phase = .free) :
    QueueInv host (s.push packet) := by
  have hcount := h.count
  have hroom := h.room
  rw [hfree, Phase.uncounted] at hcount hroom
  unfold St.push
  split
  · rename_i hspare
    refine ⟨?_, ?_, h.sorted, h.fresh, h.left, h.later, h.order⟩
    · simp only [Phase.uncounted]
      omega
    · simp only [Phase.uncounted]
      omega
  · rename_i hfull
    have htail : s.ipPacketQueue.tail.length = s.ipPacketQueue.length - 1 := List.length_tail
    have hmem : ∀ e ∈ s.ipPacketQueue.tail, e ∈ s.ipPacketQueue := fun _ => List.mem_of_mem_tail
    have hsize : 64 ≤ s.ipPacketQueue.length := by
      unfold maxIpPackets at hfull
      omega
    refine ⟨?_, ?_, h.sorted.tail, fun e he => h.fresh e (hmem e he), h.left,
      fun d hd e he => h.later d hd e (hmem e he), h.order⟩
    · simp only [Phase.uncounted, htail]
      omega
    · simp only [Phase.uncounted, htail]
      omega

theorem QueueInv.add (h : QueueInv host s) (hphase : s.phase = .counted packet) :
    QueueInv host (s.add packet true) := by
  have hcount := h.count
  have hroom := h.room
  rw [hphase, Phase.uncounted] at hcount hroom
  refine ⟨?_, ?_, ?_, ?_, ?_, ?_, h.order⟩
  · simpa [St.add, Phase.uncounted] using hcount
  · simpa [St.add, Phase.uncounted] using hroom
  · simp only [St.add, if_true]
    refine List.pairwise_append.mpr ⟨h.sorted, List.pairwise_singleton _ _, ?_⟩
    intro e he new hnew
    rw [List.mem_singleton.mp hnew]
    exact h.fresh e he
  · simp only [St.add, if_true]
    intro e he
    rcases List.mem_append.mp he with hold | hnew
    · exact (h.fresh e hold).trans (Nat.lt_succ_self _)
    · rw [List.mem_singleton.mp hnew]
      exact Nat.lt_succ_self _
  · intro d hd
    exact (h.left d hd).trans (Nat.lt_succ_self _)
  · simp only [St.add, if_true]
    intro d hd e he hwants
    rcases List.mem_append.mp he with hold | hnew
    · exact h.later d hd e hold hwants
    · rw [List.mem_singleton.mp hnew]
      exact h.left d hd

theorem QueueInv.stamp (h : QueueInv host s) (hphase : s.phase = .queued)
    (ticks ticks' : BitVec 32) : QueueInv host (s.stamp ticks ticks') := by
  have hcount := h.count
  have hroom := h.room
  rw [hphase] at hcount hroom
  exact ⟨hcount, hroom, h.sorted, h.fresh, h.left, h.later, h.order⟩

theorem QueueInv.erase (h : QueueInv host s) {p : Entry → Bool}
    (hmem : ∃ e ∈ s.ipPacketQueue, p e = true) :
    QueueInv host { s with
      ipPacketQueue := s.ipPacketQueue.eraseP p
      ipPacketCount := s.ipPacketCount - 1 } := by
  have hcount := h.count
  have hroom := h.room
  obtain ⟨e, he, hp⟩ := hmem
  have hsub : (s.ipPacketQueue.eraseP p).Sublist s.ipPacketQueue := List.eraseP_sublist
  have hlength : (s.ipPacketQueue.eraseP p).length + 1 = s.ipPacketQueue.length :=
    by
    have hone := List.length_eraseP_of_mem he hp
    have hpos := List.length_pos_of_mem he
    omega
  refine ⟨?_, ?_, h.sorted.sublist hsub, fun e he => h.fresh e (hsub.subset he), h.left,
    fun d hd e he => h.later d hd e (hsub.subset he), h.order⟩
  · simp only
    omega
  · simp only
    omega

theorem QueueInv.popIpPacket (h : QueueInv host s) (arrival : Nat) :
    QueueInv host (s.popIpPacket arrival) := by
  unfold St.popIpPacket
  split
  · rename_i hfound
    apply h.erase
    exact List.any_eq_true.mp hfound
  · exact h

theorem QueueInv.ipClearQueue (h : QueueInv host s) (hfree : s.phase = .free) :
    QueueInv host s.ipClearQueue := by
  refine ⟨?_, ?_, List.Pairwise.nil, ?_, h.left, ?_, h.order⟩
  · rw [St.ipClearQueue, hfree]
    rfl
  · rw [St.ipClearQueue, hfree]
    exact Nat.zero_le _
  · exact fun e he => absurd he List.not_mem_nil
  · exact fun d _ e he => absurd he List.not_mem_nil

/-- After the first wanted entry of a sorted queue is removed, the wanted ones that are
left arrived after it. -/
theorem lt_of_mem_eraseP {queue : List Entry} {p : Entry → Bool}
    (hsorted : queue.Pairwise fun first later => first.arrival < later.arrival)
    (hfind : queue.find? p = some e) {e' : Entry} (he' : e' ∈ queue.eraseP p)
    (hp : p e' = true) : e.arrival < e'.arrival := by
  obtain ⟨hwanted, before, after, rfl, hbefore⟩ := List.find?_eq_some_iff_append.mp hfind
  have hnone : ∀ a ∈ before, ¬p a = true := fun a ha => by
    simpa using hbefore a ha
  rw [List.eraseP_append_right _ hnone, List.eraseP_cons_of_pos hwanted] at he'
  rcases List.mem_append.mp he' with hold | hnew
  · exact absurd hp (hnone e' hold)
  · exact (List.pairwise_cons.mp (List.pairwise_append.mp hsorted).2.1).1 e' hnew

theorem QueueInv.take (h : QueueInv host s) (hfind : s.find host call.request = some e) :
    QueueInv host (s.take host call e) := by
  have hmem : e ∈ s.ipPacketQueue := List.mem_of_find?_eq_some hfind
  have hwanted : call.request.wants host e.packet = true :=
    List.find?_some (p := fun e : Entry => call.request.wants host e.packet) hfind
  unfold St.take
  split
  · exact h
  have herase := h.erase (p := fun e => call.request.wants host e.packet) ⟨e, hmem, hwanted⟩
  refine ⟨herase.count, herase.room, herase.sorted, herase.fresh, ?_, ?_, ?_⟩
  · intro d hd
    rcases List.mem_append.mp hd with hold | hnew
    · exact h.left d hold
    · rw [List.mem_singleton.mp hnew]
      exact h.fresh e hmem
  · intro d hd e' he' hwants
    rcases List.mem_append.mp hd with hold | hnew
    · exact herase.later d hold e' he' hwants
    · obtain rfl := List.mem_singleton.mp hnew
      exact lt_of_mem_eraseP h.sorted hfind he' hwants
  · refine List.pairwise_append.mpr ⟨h.order, List.pairwise_singleton _ _, ?_⟩
    intro d hd new hnew hwants
    obtain rfl := List.mem_singleton.mp hnew
    exact h.later d hd e hmem hwants

/-! ## The receivers -/

/-- The variables of the call that a receiver is in. -/
@[simp] def Pc.call? : Pc → Option Call
  | .idle => none
  | .looking call | .looked call | .window call | .asleep call => some call

/-- The call of a receiver that sleeps or is about to. -/
@[simp] def Pc.waiting? : Pc → Option Call
  | .idle | .looking _ | .looked _ => none
  | .window call | .asleep call => some call

/-- The packet was queued by the push that is under way. -/
def St.InPush (s : St R) (e : Entry) : Prop := s.phase = .queued ∧ e.arrival + 1 = s.arrivals

/-- The timestamp of a call is an old one, or the call has seen the queue. -/
structure St.UpToDate (s : St R) (call : Call) : Prop where
  le : call.timestamp ≤ s.ipTimestamp
  seen : call.timestamp = s.ipTimestamp →
    ∀ e ∈ s.ipPacketQueue, e.arrival < call.seen ∨ s.InPush e

/-- A call has seen the queue, or a push will wake its receiver. -/
def St.Served (s : St R) (call : Call) : Prop :=
  (∀ e ∈ s.ipPacketQueue, e.arrival < call.seen) ∨ s.phase.held = true ∨ 0 < s.wakes

/-- No receiver sleeps on a packet that it has not seen. -/
structure WaitInv (s : St R) : Prop where
  zero : s.ipTimestamp = 0 → ∀ e ∈ s.ipPacketQueue, s.InPush e
  current : ∀ r call, (s.pc r).call? = some call → s.UpToDate call
  listed : ∀ r call, s.pc r = .asleep call → r ∈ s.ipWait
  served : ∀ r ∈ s.ipWait, ∀ call, (s.pc r).waiting? = some call → s.Served call

theorem WaitInv.boot : WaitInv (St.boot : St R) := by
  constructor <;> simp [St.boot]

theorem St.not_inPush (hphase : s.phase = .free ∨ ∃ packet, s.phase = .counted packet) :
    ¬s.InPush e := by
  rintro ⟨hqueued, -⟩
  rcases hphase with hfree | ⟨packet, hcounted⟩
  · rw [hfree] at hqueued
    cases hqueued
  · rw [hcounted] at hqueued
    cases hqueued

/-- Packets are removed while no push holds the mutex. -/
theorem WaitInv.remove (h : WaitInv s) (hfree : s.phase = .free)
    (hsub : ∀ e ∈ s'.ipPacketQueue, e ∈ s.ipPacketQueue)
    (hstamp : s'.ipTimestamp = s.ipTimestamp) (hpc : s'.pc = s.pc) (hwait : s'.ipWait = s.ipWait)
    (hserved : s.wakes ≤ s'.wakes) : WaitInv s' := by
  refine ⟨?_, ?_, ?_, ?_⟩
  · intro hzero e he
    rw [hstamp] at hzero
    exact absurd (h.zero hzero e (hsub e he)) (St.not_inPush (.inl hfree))
  · intro r call hcall
    rw [hpc] at hcall
    obtain ⟨hle, hseen⟩ := h.current r call hcall
    rw [← hstamp] at hle hseen
    refine ⟨hle, fun heq e he => .inl ?_⟩
    exact (hseen heq e (hsub e he)).resolve_right (St.not_inPush (.inl hfree))
  · intro r call hasleep
    rw [hpc] at hasleep
    rw [hwait]
    exact h.listed r call hasleep
  · intro r hr call hcall
    rw [hwait] at hr
    rw [hpc] at hcall
    rcases h.served r hr call hcall with hall | hheld | hwakes
    · exact .inl fun e he => hall e (hsub e he)
    · rw [hfree] at hheld
      cases hheld
    · exact .inr (.inr (by omega))

theorem WaitInv.push (h : WaitInv s) (hfree : s.phase = .free) : WaitInv (s.push packet) := by
  unfold St.push
  split
  · exact h.remove hfree (fun _ he => he) rfl rfl rfl le_rfl
  · exact h.remove hfree (fun _ => List.mem_of_mem_tail) rfl rfl rfl le_rfl

theorem WaitInv.add (h : WaitInv s) (hphase : s.phase = .counted packet) :
    WaitInv (s.add packet true) := by
  have hnot : ∀ e, ¬s.InPush e := fun e => St.not_inPush (.inr ⟨packet, hphase⟩)
  have hqueue : ∀ e ∈ (s.add packet true).ipPacketQueue,
      e ∈ s.ipPacketQueue ∨ (s.add packet true).InPush e := by
    intro e he
    simp only [St.add, if_true] at he
    refine (List.mem_append.mp he).imp id fun hnew => ?_
    rw [List.mem_singleton.mp hnew]
    exact ⟨rfl, rfl⟩
  refine ⟨?_, ?_, h.listed, fun _ _ _ _ => .inr (.inl rfl)⟩
  · intro hzero e he
    exact (hqueue e he).resolve_left fun hold => hnot e (h.zero hzero e hold)
  · intro r call hcall
    obtain ⟨hle, hseen⟩ := h.current r call hcall
    refine ⟨hle, fun heq e he => ?_⟩
    rcases hqueue e he with hold | hnew
    · exact .inl ((hseen heq e hold).resolve_right (hnot e))
    · exact .inr hnew

theorem St.lt_stamp {ticks ticks' : BitVec 32} (hstamp : s.ipTimestamp.toNat + 1 < 2 ^ 32)
    (hticks : ticks ≤ ticks') : s.ipTimestamp < (s.stamp ticks ticks').ipTimestamp := by
  have hsucc : (s.ipTimestamp + 1).toNat = s.ipTimestamp.toNat + 1 := by
    rw [BitVec.toNat_add]
    exact Nat.mod_eq_of_lt hstamp
  simp only [St.stamp]
  split
  · rename_i hlt
    rw [BitVec.lt_def, hsucc] at hlt
    rw [BitVec.le_def] at hticks
    rw [BitVec.lt_def]
    omega
  · rw [BitVec.lt_def, hsucc]
    omega

theorem WaitInv.stamp (h : WaitInv s) {ticks ticks' : BitVec 32}
    (hstamp : s.ipTimestamp.toNat + 1 < 2 ^ 32) (hticks : ticks ≤ ticks') :
    WaitInv (s.stamp ticks ticks') := by
  have hlt : s.ipTimestamp < (s.stamp ticks ticks').ipTimestamp := St.lt_stamp hstamp hticks
  rw [BitVec.lt_def] at hlt
  refine ⟨?_, ?_, h.listed, fun _ _ _ _ => .inr (.inr (Nat.succ_pos _))⟩
  · intro hzero
    rw [hzero] at hlt
    exact absurd hlt (Nat.not_lt_zero _)
  · intro r call hcall
    have hle := (h.current r call hcall).le
    rw [BitVec.le_def] at hle
    refine ⟨?_, fun heq => ?_⟩
    · rw [BitVec.le_def]
      omega
    · rw [heq] at hle
      omega

theorem Pc.call?_wake (pc : Pc) : pc.wake.call? = pc.call? := by
  cases pc <;> rfl

theorem Pc.wake_ne_asleep (pc : Pc) : pc.wake ≠ .asleep call := by
  cases pc <;> exact Pc.noConfusion

theorem WaitInv.take (h : WaitInv s) (hfree : s.phase = .free) (call : Call) (e : Entry) :
    WaitInv (s.take host call e) := by
  unfold St.take
  split
  · exact h
  · exact h.remove hfree (fun _ he => List.mem_of_mem_eraseP he) rfl rfl rfl le_rfl

/-- A call for which the condition of `wait_event` fails has seen the queue, unless a
push is under way. -/
theorem served_of_not_hasNew (h : s.UpToDate call) (hq : QueueInv host s)
    (hnew : ¬s.HasNew call) (hfree : s.phase = .free) :
    ∀ e ∈ s.ipPacketQueue, e.arrival < call.seen := by
  intro e he
  have hcount := hq.count
  rw [hfree, Phase.uncounted] at hcount
  have hpos := List.length_pos_of_mem he
  have hstamp : call.timestamp = s.ipTimestamp := by
    by_contra hne
    exact hnew ⟨by omega, hne⟩
  exact (h.seen hstamp e he).resolve_right (St.not_inPush (.inl hfree))

theorem sound_of_inv (hq : QueueInv host s) (h : WaitInv s) : Sound host s := by
  have hcount := hq.count
  have hroom := hq.room
  refine ⟨?_, by omega, hq.order, ?_⟩
  · intro hheld
    cases hphase : s.phase with
    | free =>
        rw [hphase] at hcount
        exact hcount
    | counted packet =>
        rw [hphase] at hheld
        cases hheld
    | queued =>
        rw [hphase] at hheld
        cases hheld
  · rintro r call hasleep ⟨e, he, hunseen⟩
    have hlisted := h.listed r call hasleep
    refine ⟨hlisted, ?_⟩
    rcases h.served r hlisted call (by rw [hasleep]; rfl) with hall | hserved
    · exact absurd (hall e he) (Nat.not_lt.mpr hunseen)
    · exact hserved

theorem stepSound_push (hq : QueueInv host s) (hfree : s.phase = .free) :
    StepSound s (s.push packet) (.push packet true) := by
  have hcount := hq.count
  have hroom := hq.room
  rw [hfree, Phase.uncounted] at hcount hroom
  change (s.push packet).ipPacketQueue = if true = true ∧ s.ipPacketQueue.length = maxIpPackets
    then s.ipPacketQueue.tail else s.ipPacketQueue
  by_cases hfull : s.ipPacketQueue.length = maxIpPackets
  · rw [if_pos ⟨rfl, hfull⟩, St.push, if_neg (by omega)]
  · rw [if_neg (fun h => hfull h.2), St.push, if_pos (by omega)]

/-! ## The steps -/

/-- What a step does, with the guards that it passed. -/
inductive Steps [DecidableEq R] (host : Arp.Host) (s : St R) : Act R → St R → Prop where
  | push (packet : Mem) : s.phase = .free → Steps host s (.push packet true) (s.push packet)
  | noMemory (packet : Mem) : s.phase = .free → Steps host s (.push packet false) s
  | add (packet : Mem) (mem : Bool) :
      s.phase = .counted packet → Steps host s (.add mem) (s.add packet mem)
  | stamp (ticks ticks' : BitVec 32) :
      s.phase = .queued → Steps host s (.stamp ticks ticks') (s.stamp ticks ticks')
  | wake : 0 < s.wakes → Steps host s .wake s.wake
  | popIpPacket (arrival : Nat) :
      s.phase = .free → Steps host s (.popIpPacket arrival) (s.popIpPacket arrival)
  | ipClearQueue : s.phase = .free → Steps host s .ipClearQueue s.ipClearQueue
  | call (r : R) (request : Request) (peek dontwait : Bool) : s.pc r = .idle →
      Steps host s (.call r request peek dontwait)
        (s.goto r (.looking ⟨request, peek, dontwait, 0, 0⟩))
  | look (r : R) (call : Call) : s.phase = .free → s.pc r = .looking call →
      Steps host s (.look r) (s.look host r call)
  | check (r : R) (call : Call) (mem : Bool) : s.pc r = .looked call →
      Steps host s (.check r mem) (s.check r call mem)
  | sleep (r : R) (call : Call) : s.pc r = .window call →
      Steps host s (.sleep r) (s.goto r (.asleep call))

section Invariant

variable [DecidableEq R]

theorem steps_of_step {a : Act R} (h : s.step host a = some s') : Steps host s a s' := by
  cases a with
  | push packet mem =>
      cases hphase : s.phase <;> simp only [St.step, hphase] at h
      · obtain rfl := Option.some.inj h
        cases mem
        · exact .noMemory packet hphase
        · exact .push packet hphase
      · cases h
      · cases h
  | add mem =>
      cases hphase : s.phase <;> simp only [St.step, hphase] at h
      · cases h
      · obtain rfl := Option.some.inj h
        exact .add _ mem hphase
      · cases h
  | stamp ticks ticks' =>
      cases hphase : s.phase <;> simp only [St.step, hphase] at h
      · cases h
      · cases h
      · obtain rfl := Option.some.inj h
        exact .stamp ticks ticks' hphase
  | wake =>
      simp only [St.step] at h
      split at h
      · rename_i hpos
        obtain rfl := Option.some.inj h
        exact .wake hpos
      · cases h
  | popIpPacket arrival =>
      cases hphase : s.phase <;> simp only [St.step, hphase] at h
      · obtain rfl := Option.some.inj h
        exact .popIpPacket arrival hphase
      · cases h
      · cases h
  | ipClearQueue =>
      cases hphase : s.phase <;> simp only [St.step, hphase] at h
      · obtain rfl := Option.some.inj h
        exact .ipClearQueue hphase
      · cases h
      · cases h
  | call r request peek dontwait =>
      cases hpc : s.pc r <;> simp only [St.step, hpc] at h
      · obtain rfl := Option.some.inj h
        exact .call r request peek dontwait hpc
      all_goals cases h
  | look r =>
      cases hphase : s.phase <;> cases hpc : s.pc r <;> simp only [St.step, hphase, hpc] at h
      case free.looking call =>
        obtain rfl := Option.some.inj h
        exact .look r call hphase hpc
      all_goals cases h
  | check r mem =>
      cases hpc : s.pc r <;> simp only [St.step, hpc] at h
      case looked call =>
        obtain rfl := Option.some.inj h
        exact .check r call mem hpc
      all_goals cases h
  | sleep r =>
      cases hpc : s.pc r <;> simp only [St.step, hpc] at h
      case window call =>
        obtain rfl := Option.some.inj h
        exact .sleep r call hpc
      all_goals cases h

theorem QueueInv.goto (h : QueueInv host s) (r : R) (pc : Pc) : QueueInv host (s.goto r pc) :=
  ⟨h.count, h.room, h.sorted, h.fresh, h.left, h.later, h.order⟩

theorem QueueInv.look (h : QueueInv host s) (r : R) (call : Call) :
    QueueInv host (s.look host r call) := by
  unfold St.look
  split
  · split
    · rename_i e hfind
      exact (h.take hfind).goto r _
    · exact h.goto r _
  · exact h.goto r _

theorem QueueInv.check (h : QueueInv host s) (r : R) (call : Call) (mem : Bool) :
    QueueInv host (s.check r call mem) := by
  unfold St.check
  split
  · exact h.goto r _
  · exact ⟨h.count, h.room, h.sorted, h.fresh, h.left, h.later, h.order⟩

theorem QueueInv.step {a : Act R} (h : QueueInv host s) (hok : Meets s a)
    (hstep : Steps host s a s') : QueueInv host s' := by
  cases hstep with
  | push packet hfree => exact h.push hfree
  | noMemory packet hfree => exact h
  | add packet mem hphase =>
      obtain rfl : mem = true := hok
      exact h.add hphase
  | stamp ticks ticks' hphase => exact h.stamp hphase ticks ticks'
  | wake hpos => exact ⟨h.count, h.room, h.sorted, h.fresh, h.left, h.later, h.order⟩
  | popIpPacket arrival hfree => exact h.popIpPacket arrival
  | ipClearQueue hfree => exact h.ipClearQueue hfree
  | call r request peek dontwait hpc => exact h.goto r _
  | look r call hfree hpc => exact h.look r call
  | check r call mem hpc => exact h.check r call mem
  | sleep r call hpc => exact h.goto r _

theorem WaitInv.goto (h : WaitInv s) {pc : Pc}
    (hcall : ∀ call, pc.call? = some call → s.UpToDate call)
    (hasleep : ∀ call, pc = .asleep call → r ∈ s.ipWait)
    (hwaiting : r ∈ s.ipWait → ∀ call, pc.waiting? = some call → s.Served call) :
    WaitInv (s.goto r pc) := by
  refine ⟨h.zero, ?_, ?_, ?_⟩
  · intro u call hu
    by_cases hur : u = r
    · rw [hur, St.goto_pc_self] at hu
      exact ⟨(hcall call hu).le, (hcall call hu).seen⟩
    · rw [St.goto_pc_of_ne _ _ hur] at hu
      exact ⟨(h.current u call hu).le, (h.current u call hu).seen⟩
  · intro u call hu
    by_cases hur : u = r
    · rw [hur, St.goto_pc_self] at hu
      rw [hur]
      exact hasleep call hu
    · rw [St.goto_pc_of_ne _ _ hur] at hu
      exact h.listed u call hu
  · intro u hlisted call hu
    by_cases hur : u = r
    · rw [hur, St.goto_pc_self] at hu
      exact hwaiting (hur ▸ hlisted) call hu
    · rw [St.goto_pc_of_ne _ _ hur] at hu
      exact h.served u hlisted call hu

theorem WaitInv.wake (h : WaitInv s) : WaitInv s.wake := by
  refine ⟨h.zero, ?_, ?_, fun r hr => absurd hr List.not_mem_nil⟩
  · intro r call hcall
    have hsame : (s.pc r).call? = some call := by
      simp only [St.wake] at hcall
      split at hcall
      · rwa [Pc.call?_wake] at hcall
      · exact hcall
    exact ⟨(h.current r call hsame).le, (h.current r call hsame).seen⟩
  · intro r call hasleep
    simp only [St.wake] at hasleep
    split at hasleep
    · exact absurd hasleep (Pc.wake_ne_asleep _)
    · rename_i hnot
      exact absurd (h.listed r call hasleep) hnot

/-- A new call has seen nothing, and its timestamp is that of the empty queue. -/
theorem WaitInv.newCall (h : WaitInv s) (r : R) (request : Request) (peek dontwait : Bool) :
    WaitInv (s.goto r (.looking ⟨request, peek, dontwait, 0, 0⟩)) := by
  apply h.goto
  · rintro call ⟨⟩
    exact ⟨BitVec.le_def.mpr (Nat.zero_le _), fun hzero e he => .inr (h.zero hzero.symm e he)⟩
  · rintro call ⟨⟩
  · rintro - call ⟨⟩

theorem WaitInv.nothing (h : WaitInv s) (r : R) (call : Call) (hcall : s.UpToDate call) :
    WaitInv (s.goto r (if call.dontwait then .idle else .looked call)) := by
  split
  · apply h.goto
    · rintro call ⟨⟩
    · rintro call ⟨⟩
    · rintro - call ⟨⟩
  · apply h.goto
    · rintro call ⟨⟩
      exact hcall
    · rintro call ⟨⟩
    · rintro - call ⟨⟩

theorem WaitInv.look (h : WaitInv s) (hq : QueueInv host s) (hfree : s.phase = .free)
    (hpc : s.pc r = .looking call) : WaitInv (s.look host r call) := by
  have hcall : s.UpToDate call := h.current r call (by rw [hpc]; rfl)
  unfold St.look
  split
  · split
    · rename_i e hfind
      apply (h.take hfree call e).goto
      · rintro call ⟨⟩
      · rintro call ⟨⟩
      · rintro - call ⟨⟩
    · apply h.nothing
      exact ⟨BitVec.le_refl _, fun _ e he => .inl (hq.fresh e he)⟩
  · exact h.nothing r call hcall

theorem WaitInv.check (h : WaitInv s) (hq : QueueInv host s) (hpc : s.pc r = .looked call) :
    WaitInv (s.check r call true) := by
  have hcall : s.UpToDate call := h.current r call (by rw [hpc]; rfl)
  unfold St.check
  split
  · apply h.goto
    · rintro call ⟨⟩
      exact hcall
    · rintro call ⟨⟩
    · rintro - call ⟨⟩
  · rename_i hnew
    have hserved : s.Served call := by
      cases hphase : s.phase with
      | free => exact .inl (served_of_not_hasNew hcall hq hnew hphase)
      | counted packet => exact .inr (.inl (by rw [hphase]; rfl))
      | queued => exact .inr (.inl (by rw [hphase]; rfl))
    have hlisted : WaitInv { s with ipWait := s.ipWait ++ [r] } := by
      refine ⟨h.zero, ?_, ?_, ?_⟩
      · intro u call hu
        exact ⟨(h.current u call hu).le, (h.current u call hu).seen⟩
      · intro u call hu
        exact List.mem_append_left _ (h.listed u call hu)
      · intro u hu call hwaiting
        rcases List.mem_append.mp hu with hold | hnew
        · exact h.served u hold call hwaiting
        · rw [List.mem_singleton.mp hnew] at hwaiting
          change (s.pc r).waiting? = some call at hwaiting
          rw [hpc] at hwaiting
          cases hwaiting
    apply hlisted.goto
    · rintro call ⟨⟩
      exact ⟨hcall.le, hcall.seen⟩
    · rintro call ⟨⟩
    · rintro - call ⟨⟩
      exact hserved

theorem WaitInv.sleep (h : WaitInv s) (hpc : s.pc r = .window call) (hlisted : r ∈ s.ipWait) :
    WaitInv (s.goto r (.asleep call)) := by
  have hcall : s.UpToDate call := h.current r call (by rw [hpc]; rfl)
  have hserved : s.Served call := h.served r hlisted call (by rw [hpc]; rfl)
  apply h.goto
  · rintro call ⟨⟩
    exact hcall
  · rintro call ⟨⟩
    exact hlisted
  · rintro - call ⟨⟩
    exact hserved

theorem WaitInv.step {a : Act R} (h : WaitInv s) (hq : QueueInv host s) (hok : Meets s a)
    (hstep : Steps host s a s') : WaitInv s' := by
  cases hstep with
  | push packet hfree => exact h.push hfree
  | noMemory packet hfree => exact h
  | add packet mem hphase =>
      obtain rfl : mem = true := hok
      exact h.add hphase
  | stamp ticks ticks' hphase => exact h.stamp hok.1 hok.2
  | wake hpos => exact h.wake
  | popIpPacket arrival hfree =>
      unfold St.popIpPacket
      split
      · exact h.remove hfree (fun _ he => List.mem_of_mem_eraseP he) rfl rfl rfl le_rfl
      · exact h
  | ipClearQueue hfree =>
      exact h.remove hfree (fun _ he => absurd he List.not_mem_nil) rfl rfl rfl le_rfl
  | call r request peek dontwait hpc => exact h.newCall r request peek dontwait
  | look r call hfree hpc => exact h.look hq hfree hpc
  | check r call mem hpc =>
      obtain rfl : mem = true := hok
      exact h.check hq hpc
  | sleep r call hpc => exact h.sleep hpc hok

theorem stepSound_check (hq : QueueInv host s) (h : WaitInv s) (hpc : s.pc r = .looked call) :
    StepSound s (s.check r call true) (.check r true) := by
  intro call' hwindow hheld
  have hcall : s.UpToDate call := h.current r call (by rw [hpc]; rfl)
  have hfree : s.phase = .free := by
    cases hphase : s.phase with
    | free => rfl
    | counted packet =>
        rw [hphase] at hheld
        cases hheld
    | queued =>
        rw [hphase] at hheld
        cases hheld
  unfold St.check at hwindow
  split at hwindow
  · rw [St.goto_pc_self] at hwindow
    cases hwindow
  · rename_i hnew
    rw [St.goto_pc_self] at hwindow
    obtain rfl := Pc.window.inj hwindow
    exact served_of_not_hasNew hcall hq hnew hfree

theorem stepSound_of_inv {a : Act R} (hq : QueueInv host s) (h : WaitInv s) (hok : Meets s a)
    (hstep : Steps host s a s') : StepSound s s' a := by
  cases hstep with
  | push packet hfree => exact stepSound_push hq hfree
  | noMemory packet hfree => exact (if_neg (by simp)).symm
  | add packet mem hphase =>
      obtain rfl : mem = true := hok
      exact ⟨packet, hphase, rfl⟩
  | stamp ticks ticks' hphase =>
      intro hsame
      have hlt := BitVec.lt_def.mp (St.lt_stamp hok.1 hok.2)
      rw [hsame] at hlt
      exact absurd hlt (Nat.lt_irrefl _)
  | check r call mem hpc =>
      obtain rfl : mem = true := hok
      exact stepSound_check hq h hpc
  | wake hpos => trivial
  | popIpPacket arrival hfree => trivial
  | ipClearQueue hfree => trivial
  | call r request peek dontwait hpc => trivial
  | look r call hfree hpc => trivial
  | sleep r call hpc => trivial

/-- In every run whose steps meet the condition, every reached state is sound, and so is
every further step that meets it. -/
theorem queue_sound {as : List (Act R)}
    (hrun : Run (Guarded Meets (Computes (St.step host))) St.boot as s) :
    Sound host s ∧ ∀ a s', Meets s a → s.step host a = some s' → StepSound s s' a := by
  have hinv : QueueInv host s ∧ WaitInv s := by
    refine hrun.guarded_invariant (I := fun s => QueueInv host s ∧ WaitInv s) ?_
      ⟨QueueInv.boot, WaitInv.boot⟩
    intro s a s' hi hok hstep
    have hsteps := steps_of_step hstep
    exact ⟨hi.1.step hok hsteps, hi.2.step hi.1 hok hsteps⟩
  refine ⟨sound_of_inv hinv.1 hinv.2, fun a s' hok hstep => ?_⟩
  exact stepSound_of_inv hinv.1 hinv.2 hok (steps_of_step hstep)

end Invariant

instance [DecidableEq R] (s : St R) : ∀ a, Decidable (Meets s a)
  | .add _ => inferInstanceAs (Decidable (_ = _))
  | .stamp _ _ => inferInstanceAs (Decidable (_ ∧ _))
  | .check _ _ => inferInstanceAs (Decidable (_ = _))
  | .sleep r => inferInstanceAs (Decidable (r ∈ s.ipWait))
  | .push .. | .wake | .popIpPacket _ | .ipClearQueue | .call .. | .look _ => isTrue trivial

def anyPort : SockAddr := ⟨afInet, 53, Arp.inaddrAny⟩

/-- A receiver finds nothing and sleeps, and a push wakes it. -/
def wokenActs : List (Act Unit) :=
  [.call () (.udp anyPort) false false, .look (), .check () true, .sleep (),
    .push (fun _ => 0) true, .add true, .stamp 0 0, .wake, .check () true]

theorem queue_sound_woken : ∃ s : St Unit, wokenActs.foldlM
    (checked Meets (St.step exampleHost)) St.boot = some s ∧
      s.ipPacketCount = 1 ∧ Sound exampleHost s := by
  obtain ⟨s, hs, hcount⟩ : ∃ s, wokenActs.foldlM (checked Meets (St.step exampleHost)) St.boot =
      some s ∧ s.ipPacketCount = 1 := ⟨_, rfl, rfl⟩
  exact ⟨s, hs, hcount, (queue_sound (Run.of_foldlM_checked hs)).1⟩

/-- There is memory for the packet and none for the node: it is counted but not
queued. -/
theorem packet_lost :
    ¬∀ (acts : List (Act Unit)) s, Run (Computes (St.step exampleHost)) St.boot acts s →
      Sound exampleHost s := by
  intro hsound
  obtain ⟨s, hs, hcount, hqueue, hphase⟩ : ∃ s : St Unit,
      [Act.push (fun _ => 0) true, .add false, .stamp 0 0].foldlM (St.step exampleHost) St.boot =
        some s ∧ s.ipPacketCount = 1 ∧ s.ipPacketQueue = [] ∧ s.phase = .free :=
    ⟨_, rfl, rfl, rfl, rfl⟩
  have hsame := (hsound _ s (Run.of_foldlM hs)).count (by rw [hphase]; rfl)
  rw [hcount, hqueue] at hsame
  exact absurd hsame (by decide)

end OsdevArchive.Minirighi.IpQueue
