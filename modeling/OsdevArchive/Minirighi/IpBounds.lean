import OsdevArchive.Minirighi.EthRing
import OsdevArchive.Minirighi.IpStore

/-!
Which bytes of a received packet are read. `eth_recv_daemon` knows how many bytes
the card delivered, but `to_ip_layer` gets only the packet: it and the handlers that
it calls rely on the lengths in the headers, and compare none of them.
-/

namespace OsdevArchive.Minirighi.Ip

open OsdevArchive.Minirighi.EthRing OsdevArchive.Minirighi.Inet OsdevArchive.Minirighi.Tcp

/-- A read access to the packet. -/
structure Access where
  off : Nat
  len : Nat
  deriving DecidableEq

/-- All bytes that it reads were received. -/
def Access.Inside (received : Nat) (a : Access) : Prop := 0 < a.len → a.off + a.len ≤ received

/-- The accesses of `ip_checksum`, two bytes at a time. -/
def checksumAccess (off len : Nat) : Access := ⟨off, 2 * (len / 2)⟩

/-- The accesses of `to_icmp_layer`. The answer to an echo request reads the source
address, and copies the whole ICMP packet. -/
def icmpAccesses (host : Arp.Host) (m : Mem) : List Access :=
  ⟨2, 2⟩ :: checksumAccess (headLen m) (payloadLen m) ::
    if ipChecksum (payload m) (payloadLen m) ≠ 0 then []
    else ⟨headLen m, 1⟩ ::
      if (payload m 0).toNat = icmpEcho then
        ⟨16, 4⟩ :: if IsOurs host (ipDst m) then [⟨12, 4⟩, ⟨headLen m, payloadLen m⟩] else []
      else []

/-- The accesses of `to_tcp_layer`: the checksum, `dump_tcp_packet`, and the answer. -/
def tcpAccesses (env : TcpEnv) (m : Mem) : List Access :=
  ⟨2, 2⟩ :: ⟨12, 8⟩ :: ⟨headLen m, payloadLen m⟩ ::
    match tcpOutcome env m with
    | .protocolError => []
    | .nullPointer => dump
    | .done result => dump ++ result.sent.toList.map fun n => ⟨headLen m, n.toNat⟩
where
  dump : List Access :=
    [⟨headLen m, tcpHeadLen⟩,
      ⟨headLen m + tcpHdrLen (payload m) * 4, sub32 (payloadLen m) (tcpHdrLen (payload m) * 4)⟩]

/-- The accesses of `to_udp_layer`. -/
def udpAccesses (m : Mem) : List Access :=
  ⟨12, 8⟩ :: ⟨headLen m + 6, 2⟩ ::
    if udpChk (payload m) = 0 then []
    else [⟨headLen m + 4, 2⟩, ⟨headLen m, ntohs (udpLen (payload m))⟩]

/-- The accesses of the handler of a protocol. -/
def handlerAccesses (host : Arp.Host) (env : TcpEnv) (m : Mem) : List Access :=
  if ipProto m = ipprotoIcmp then icmpAccesses host m
  else if ipProto m = ipprotoTcp then tcpAccesses env m
  else if ipProto m = ipprotoUdp then udpAccesses m
  else []

/-- The accesses of `push_ip_packet`. -/
def pushAccesses (m : Mem) : List Access := [⟨2, 2⟩, ⟨0, ipLen m⟩]

/-- The accesses of `to_ip_layer`. -/
def toIpLayerAccesses (host : Arp.Host) (env : TcpEnv) (m : Mem) : List Access :=
  ⟨0, 1⟩ :: checksumAccess 0 (headLen m) ::
    if ipChecksum m (headLen m) ≠ 0 then []
    else ⟨9, 1⟩ :: (handlerAccesses host env m ++
      (toIpLayer host env m).toList.flatMap pushAccesses)

/-- The size of the transport header. -/
def transportHeadLen (m : Mem) : Nat :=
  if ipProto m = ipprotoIcmp then 4
  else if ipProto m = ipprotoTcp then max tcpHeadLen (tcpHdrLen (payload m) * 4)
  else if ipProto m = ipprotoUdp then udpHeadLen
  else 0

/-- The header of a packet agrees with how much was received of it. -/
structure Sane (m : Mem) (received : Nat) : Prop where
  minimal : ipHeadMinLen ≤ headLen m
  head : headLen m + transportHeadLen m ≤ ntohs (ipLen m)
  length : ntohs (ipLen m) ≤ received

/-- What the bounds of the received packet ask: nothing outside of them is read, and
what is passed on to a handler or to the store has a sane header. -/
structure Bounded (host : Arp.Host) (env : TcpEnv) (m : Mem) (received : Nat) : Prop where
  inside : ∀ a ∈ toIpLayerAccesses host env m, a.Inside received
  sane : ipChecksum m (headLen m) = 0 → Sane m received

/-- Which packets with a good header checksum the handlers let through to the store. -/
def Accepts (host : Arp.Host) (env : TcpEnv) (m : Mem) : Prop :=
  if ipProto m = ipprotoIcmp then
    ipChecksum (payload m) (payloadLen m) = 0 ∧
      ¬((payload m 0).toNat = icmpEcho ∧ IsOurs host (ipDst m))
  else if ipProto m = ipprotoTcp then
    tcpChecksum (payload m) (payloadLen m) (ipSrc m) (ipDst m) = 0 ∧
      (env.conn = none → ¬tcpAck (payload m) ∧ (tcpSyn (payload m) → env.mem))
  else if ipProto m = ipprotoUdp then
    udpChk (payload m) = 0 ∨
      udpChecksum (withChk (payload m)) (ntohs (udpLen (payload m))) (ipSrc m) (ipDst m) = 0
  else True

variable {host : Arp.Host} {env : TcpEnv} {m m' : Mem} {received : Nat} {a : Access}

theorem payloadLen_lt : payloadLen m < 2 ^ 32 := wrap_lt _

theorem udpLen_withChk : udpLen (withChk m) = udpLen m := by
  unfold withChk
  split
  · rw [udpLen, udpLen, loadWord, loadWord, store_wordBytes, store_wordBytes]
    simp
  · rfl

theorem toUdpLayer_isSome {src dst : BitVec 32} : (∃ p, toUdpLayer m src dst = some p) ↔
    udpChk m = 0 ∨ udpChecksum (withChk m) (ntohs (udpLen m)) src dst = 0 := by
  unfold toUdpLayer
  rw [udpLen_withChk]
  split
  · rename_i hunused
    exact iff_of_true ⟨m, rfl⟩ (.inl hunused)
  rename_i hused
  rw [or_iff_right hused]
  split
  · rename_i hbad
    refine iff_of_false ?_ hbad
    rintro ⟨p, hp⟩
    cases hp
  · rename_i hgood
    refine iff_of_true ?_ (not_not.mp hgood)
    split
    · exact ⟨_, rfl⟩
    · exact ⟨_, rfl⟩

theorem tcpOutcome_done : (∃ result, tcpOutcome env m = .done result) ↔
    tcpChecksum (payload m) (payloadLen m) (ipSrc m) (ipDst m) = 0 ∧
      (env.conn = none → ¬tcpAck (payload m) ∧ (tcpSyn (payload m) → env.mem)) := by
  have hlen : (BitVec.ofNat 32 (payloadLen m)).toNat = payloadLen m := by
    rw [BitVec.toNat_ofNat, Nat.mod_eq_of_lt payloadLen_lt]
  rw [tcpOutcome, toTcpLayer_done_iff, hlen]

theorem toIpLayer_isSome (hchk : ipChecksum m (headLen m) = 0) :
    (∃ p, toIpLayer host env m = some p) ↔ Accepts host env m := by
  unfold toIpLayer Accepts
  rw [if_neg (not_not_intro hchk)]
  split
  · unfold toIcmpLayer
    by_cases hbad : ipChecksum (payload m) (payloadLen m) = 0
    · by_cases hecho : (payload m 0).toNat = icmpEcho ∧ IsOurs host (ipDst m)
      · simp [hbad, hecho]
      · simp [hbad, hecho]
    · simp [hbad]
  split
  · rename_i higmp
    rw [if_neg (by rw [higmp]; decide), if_neg (by rw [higmp]; decide)]
    exact iff_of_true ⟨m, rfl⟩ trivial
  split
  · rw [← tcpOutcome_done]
    cases tcpOutcome env m with
    | done result => exact iff_of_true ⟨_, rfl⟩ ⟨result, rfl⟩
    | protocolError => simp
    | nullPointer => simp
  split
  · rw [← toUdpLayer_isSome]
    simp [Option.map_eq_some_iff]
  · exact iff_of_true ⟨m, rfl⟩ trivial

end OsdevArchive.Minirighi.Ip
