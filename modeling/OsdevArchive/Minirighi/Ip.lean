import OsdevArchive.Minirighi.Arp
import OsdevArchive.Minirighi.Tcp

/-!
The IP layer (`network/ip.c`) with the handlers of ICMP and UDP: how a packet is
received, stored and copied out to a receiver, and how one is built. Lengths are
unsigned 32-bit differences, as the source computes them. `push_ip_packet` takes
`ip_len` in network order, all others take `ntohs(ip_len)`.
-/

namespace OsdevArchive.Minirighi.Ip

open OsdevArchive.Minirighi.Arp OsdevArchive.Minirighi.Inet OsdevArchive.Minirighi.Tcp

/-- `sizeof(ip_t)`, and also `IP_HEAD_MIN_LEN`. -/
def ipHeadMinLen : Nat := 20

def ipFrameLen : Nat := 65535

/-- `sizeof(udp_t)`. -/
def udpHeadLen : Nat := 8

/-! The fields of an IP packet, all in network format. -/

def ipHdrLen (m : Mem) : Nat := (m 0).toNat % 16

def ipLen (m : Mem) : Nat := loadWord m 2

def ipProto (m : Mem) : Nat := (m 9).toNat

def ipSrc (m : Mem) : BitVec 32 := loadLong m 12

def ipDst (m : Mem) : BitVec 32 := loadLong m 16

/-- `packet->ip_hdr_len * 4`. -/
def headLen (m : Mem) : Nat := ipHdrLen m * 4

/-- `ntohs(packet->ip_len) - packet->ip_hdr_len * 4`, on 32-bit words. -/
def payloadLen (m : Mem) : Nat := sub32 (ntohs (ipLen m)) (headLen m)

/-! The fields of a UDP packet. -/

def udpSrc (m : Mem) : Nat := loadWord m 0

def udpDst (m : Mem) : Nat := loadWord m 2

def udpLen (m : Mem) : Nat := loadWord m 4

def udpChk (m : Mem) : Nat := loadWord m 6

/-- The transport packet inside an IP packet. -/
def payload (m : Mem) : Mem := shift m (headLen m)

/-- The IP packet after its transport packet was changed in place. -/
def withPayload (m p : Mem) : Mem := fun i => if i < headLen m then m i else p (i - headLen m)

def icmpEcho : Nat := 8

/-- The destinations to which an echo request is answered. -/
def IsOurs (host : Host) (dst : BitVec 32) : Prop :=
  dst = host.ip ∨ dst = host.bcast ∨ dst = inaddrBroadcast ∨ dst = inaddrLoopback

instance (host : Host) (dst : BitVec 32) : Decidable (IsOurs host dst) :=
  inferInstanceAs (Decidable (_ ∨ _ ∨ _ ∨ _))

/-- What becomes of an ICMP packet. -/
inductive IcmpResult where
  /-- `-EPROTO`. -/
  | protocolError
  /-- It was answered with `icmp_fast_echo_reply` and is not stored. -/
  | echoReply
  | accepted
  deriving DecidableEq

/-- `to_icmp_layer`. -/
def toIcmpLayer (host : Host) (m : Mem) : IcmpResult :=
  if ipChecksum (payload m) (payloadLen m) ≠ 0 then .protocolError
  else if (payload m 0).toNat = icmpEcho ∧ IsOurs host (ipDst m) then .echoReply
  else .accepted

/-- In the checksum field `0xFFFF` stands for zero. -/
def withChk (m : Mem) : Mem := if udpChk m = 0xFFFF then store m 6 (wordBytes 0) else m

/-- `to_udp_layer`: the packet that it leaves, unless it rejects it. The checksum is
optional, and not used if its field is zero. -/
def toUdpLayer (m : Mem) (src dst : BitVec 32) : Option Mem :=
  if udpChk m = 0 then some m
  else if udpChecksum (withChk m) (ntohs (udpLen (withChk m))) src dst ≠ 0 then none
  else if udpChk (withChk m) = 0 then some (store (withChk m) 6 (wordBytes 0xFFFF))
  else some (withChk m)

/-- What `to_tcp_layer` finds besides the segment: `tcp_conn`, whether there is memory
for a new connection, and the clock. -/
structure TcpEnv where
  conn : Option TcpState
  mem : Bool
  ticks : BitVec 32

/-- The call of `to_tcp_layer` for an IP packet. -/
def tcpOutcome (env : TcpEnv) (m : Mem) : Outcome :=
  toTcpLayer (payload m) (BitVec.ofNat 32 (payloadLen m)) (ipSrc m) (ipDst m)
    env.conn env.mem env.ticks

/-- Whether TCP answers a packet, and so writes over it. -/
def Answered (env : TcpEnv) (m : Mem) : Prop :=
  ipProto m = ipprotoTcp ∧ (tcpOutcome env m).Answered

/-- `to_ip_layer`: the packet that it hands to `push_ip_packet`, if it does, as the
transport layer left it. -/
def toIpLayer (host : Host) (env : TcpEnv) (m : Mem) : Option Mem :=
  if ipChecksum m (headLen m) ≠ 0 then none
  else if ipProto m = ipprotoIcmp then
    if toIcmpLayer host m = .accepted then some m else none
  else if ipProto m = ipprotoIgmp then some m
  else if ipProto m = ipprotoTcp then
    match tcpOutcome env m with
    | .done result => some (withPayload m result.packet)
    | .protocolError | .nullPointer => none
  else if ipProto m = ipprotoUdp then
    (toUdpLayer (payload m) (ipSrc m) (ipDst m)).map (withPayload m)
  else some m

/-- The copy that `push_ip_packet` stores. Its length is `packet->ip_len`. -/
def pushIpPacket (m : Mem) : List Byte := bytesAt m 0 (ipLen m)

/-- The memory from a stored copy on: the copy, and what lies behind it. -/
def stored (bytes : List Byte) (beyond : Mem) : Mem := fun i => (bytes[i]?).getD (beyond i)

def afInet : Nat := 2

/-- `struct sockaddr_in`. -/
structure SockAddr where
  family : Nat
  port : BitVec 16
  addr : BitVec 32
  deriving DecidableEq

/-- `ip_packet_filter`: whether a packet is kept from a socket. -/
def ipPacketFilter (host : Host) (src dst : BitVec 32) (sock : SockAddr) : Bool :=
  if sock.family = afInet ∧ (sock.addr = src ∨
      sock.addr = inaddrAny ∨ sock.addr = inaddrBroadcast ∨
      sock.addr = inaddrLoopback ∧ src = host.ip ∨
      sock.addr = host.ip ∧ src = inaddrLoopback ∨
      sock.addr = host.bcast ∧ dst &&& host.netmask = host.ip &&& host.netmask) then false
  else true

/-- What a receiver gets: where in the packet the copy starts, the bytes, the sender,
and the returned length. -/
structure Received where
  start : Nat
  data : List Byte
  sock : SockAddr
  ret : Nat
  deriving DecidableEq

/-- `ip_recvfrom`, from the packet that it found on. -/
def ipRecvfrom (m : Mem) (len : Nat) (trunc : Bool) : Received :=
  let n := min len (payloadLen m)
  ⟨headLen m, bytesAt m (headLen m) n, ⟨afInet, BitVec.ofNat 16 (ipProto m), ipSrc m⟩,
    if trunc then payloadLen m else n⟩

/-- `udp_recvfrom`, from the packet that it found on. -/
def udpRecvfrom (m : Mem) (len : Nat) (trunc : Bool) : Received :=
  let udpLen := sub32 (payloadLen m) udpHeadLen
  let n := min len udpLen
  ⟨headLen m + udpHeadLen, bytesAt m (headLen m + udpHeadLen) n,
    ⟨afInet, BitVec.ofNat 16 (udpSrc (payload m)), ipSrc m⟩, if trunc then udpLen else n⟩

/-- Whether `ip_recvfrom` finds a packet on a socket for a protocol. -/
def IpFinds (host : Host) (protocol : Nat) (sock : SockAddr) (m : Mem) : Prop :=
  ipProto m = protocol ∧ ipPacketFilter host (ipSrc m) (ipDst m) sock = false

/-- Whether `udp_recvfrom` finds a packet. -/
def UdpFinds (host : Host) (sock : SockAddr) (m : Mem) : Prop :=
  ipProto m = ipprotoUdp ∧ ipPacketFilter host (ipSrc m) (ipDst m) sock = false ∧
    udpDst (payload m) = sock.port.toNat

instance (host : Host) (protocol : Nat) (sock : SockAddr) (m : Mem) :
    Decidable (IpFinds host protocol sock m) :=
  inferInstanceAs (Decidable (_ ∧ _))

instance (host : Host) (sock : SockAddr) (m : Mem) : Decidable (UdpFinds host sock m) :=
  inferInstanceAs (Decidable (_ ∧ _ ∧ _))

/-- The errors of sending. -/
inductive Errno where
  | einval
  | enomem
  | enetdown
  | emsgsize
  deriving DecidableEq

def ipDefaultTtl : Nat := 64

/-- The IP header that `send_ip_packet` builds, with a given checksum. -/
def ipHeader (packetLen ttl proto : Nat) (src dst : BitVec 32) (chk : Nat) : List Byte :=
  [0x45, 0] ++ wordBytes (ntohs packetLen) ++ wordBytes (ntohs 0xDEAD) ++
    wordBytes (ntohs 0x4000) ++ [BitVec.ofNat 8 ttl, BitVec.ofNat 8 proto] ++ wordBytes chk ++
    longBytes src ++ longBytes dst

/-- `send_ip_packet` sends to the loopback address if it gets none. -/
def destination (ipTo : BitVec 32) : BitVec 32 :=
  if ipTo = inaddrAny then inaddrLoopback else ipTo

/-- The checksum of that header. -/
def headerChk (packetLen ttl proto : Nat) (src dst : BitVec 32) : Nat :=
  ipChecksum (ofBytes (ipHeader packetLen ttl proto src dst 0)) ipHeadMinLen

/-- The packet that `send_ip_packet` builds. -/
def ipPacket (packetLen ttl proto : Nat) (src dst : BitVec 32) (data : List Byte) : List Byte :=
  ipHeader packetLen ttl proto src dst (headerChk packetLen ttl proto src dst) ++ data

/-- `send_ip_packet`, up to the packet that it hands to ARP and to the next layer. `mem`
tells whether `kmalloc` succeeds. -/
def sendIpPacket (host : Host) (mem : Bool) (ipTo : BitVec 32) (data : List Byte)
    (ttl proto : Nat) : Except Errno (List Byte) :=
  if host.ip = 0 then .error .enetdown
  else if ipFrameLen < data.length + ipHeadMinLen then .error .emsgsize
  else if mem then
    .ok (ipPacket (data.length + ipHeadMinLen) ttl proto host.ip (destination ipTo) data)
  else .error .enomem

/-- The datagram that `udp_sendto` builds, with a given checksum. The length field has
16 bits and is assigned the result of `htonl`. -/
def datagram (src dst : BitVec 16) (chk : Nat) (msg : List Byte) : List Byte :=
  wordBytes src.toNat ++ wordBytes dst.toNat ++
    wordBytes (ntohl (BitVec.ofNat 32 (msg.length + udpHeadLen))).toNat ++ wordBytes chk ++ msg

/-- The checksum that `udp_sendto` computes. -/
def datagramChk (host : Host) (src : BitVec 16) (sock : SockAddr) (msg : List Byte) : Nat :=
  udpChecksum (ofBytes (datagram src sock.port 0 msg)) (msg.length + udpHeadLen) host.ip sock.addr

/-- `udp_sendto`, for the local port that `new_local_port` gives. -/
def udpSendto (host : Host) (mem memIp : Bool) (src : BitVec 16) (sock : SockAddr)
    (msg : List Byte) : Except Errno (List Byte) :=
  if sock.family ≠ afInet then .error .einval
  else if sock.port = 0 then .error .einval
  else if mem then
    sendIpPacket host memIp sock.addr (datagram src sock.port (datagramChk host src sock msg) msg)
      ipDefaultTtl ipprotoUdp
  else .error .enomem

end OsdevArchive.Minirighi.Ip
