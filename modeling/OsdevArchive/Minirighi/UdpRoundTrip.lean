import OsdevArchive.Minirighi.IpBounds

/-!
A UDP packet from the sender to the receiver that is bound to its port. The length
field of the packet has 16 bits and `udp_sendto` assigns it `htonl(len)`, whose low
half is zero, so the receiver computes the checksum of no data at all.
-/

namespace OsdevArchive.Minirighi.Ip

open OsdevArchive.Lib.OnesComplement OsdevArchive.Minirighi.Inet OsdevArchive.Minirighi.Tcp

/-- A receiver bound to the destination port, whose filter lets the sender through,
finds the packet `m` and gets the message, its sender and its length. -/
def Receives (receiver : Arp.Host) (m : Mem) (sender dest : SockAddr) (msg : List Byte) : Prop :=
  ∀ sock : SockAddr, sock.port = dest.port →
    ipPacketFilter receiver sender.addr (destination dest.addr) sock = false →
    UdpFinds receiver sock m ∧ ∀ len < 2 ^ 32, msg.length ≤ len →
      (udpRecvfrom m len false).data = msg ∧ (udpRecvfrom m len false).sock = sender ∧
        (udpRecvfrom m len false).ret = msg.length

/-- What a round trip asks of the receiving host: `to_ip_layer` accepts the packet, and
of the stored copy the bound receiver gets the message. -/
def RoundTrip (receiver : Arp.Host) (env : TcpEnv) (packet : List Byte) (sender dest : SockAddr)
    (msg : List Byte) : Prop :=
  ∀ beyond, ∃ m, toIpLayer receiver env (stored packet beyond) = some m ∧
    ∀ beyond', Receives receiver (stored (pushIpPacket m) beyond') sender dest msg

/-- The sum that the receiver checks: the pseudo-header with a length of zero. -/
def emptySum (host : Arp.Host) (dest : SockAddr) : Nat :=
  pseudoSum ipprotoUdp 0 host.ip (destination dest.addr)

/-- When the round trip succeeds: the length of the packet does not exceed the same
bytes in the other order, and either the sender computes the checksum zero, which means
that there is none, or the sum without any data checks. -/
def Deliverable (host : Arp.Host) (src : BitVec 16) (dest : SockAddr) (msg : List Byte) : Prop :=
  msg.length + 28 ≤ ntohs (msg.length + 28) ∧
    (datagramChk host src dest msg = 0 ∨ emptySum host dest % 65535 = 0)

/-- The packet that `udp_sendto` builds. -/
def udpPacket (host : Arp.Host) (src : BitVec 16) (dest : SockAddr) (msg : List Byte) :
    List Byte :=
  ipPacket (msg.length + 28) ipDefaultTtl ipprotoUdp host.ip (destination dest.addr)
    (datagram src dest.port (datagramChk host src dest msg) msg)

variable {host receiver : Arp.Host} {env : TcpEnv} {src : BitVec 16} {dest : SockAddr}
  {msg : List Byte} {packet : List Byte} {mem memIp : Bool} {beyond : Mem} {m p : Mem}

theorem udpSendto_ok (h : udpSendto host mem memIp src dest msg = .ok packet) :
    packet = udpPacket host src dest msg ∧ msg.length + 28 ≤ 65535 := by
  unfold udpSendto sendIpPacket at h
  have hlen : (datagram src dest.port (datagramChk host src dest msg) msg).length + ipHeadMinLen =
      msg.length + 28 := by
    simp [datagram, wordBytes, ipHeadMinLen]
  rw [hlen] at h
  split_ifs at h with hfamily hport hmem hdown hsize hmemIp
  refine ⟨(Except.ok.inj h).symm, ?_⟩
  unfold ipFrameLen at hsize
  omega

/-- The length field of the datagram is zero. -/
theorem ntohl_mod {x : BitVec 32} (h : x.toNat < 2 ^ 16) : (ntohl x).toNat % 2 ^ 16 = 0 := by
  have hhigh : ∀ k (hk : k < 32), 16 ≤ k → x[k] = false := by
    intro k hk hle
    rw [← BitVec.getLsbD_eq_getElem, ← BitVec.testBit_toNat]
    exact Nat.testBit_lt_two_pow (lt_of_lt_of_le h (Nat.pow_le_pow_right (by decide) hle))
  apply Nat.eq_of_testBit_eq
  intro i
  rw [Nat.testBit_mod_two_pow, Nat.zero_testBit, Bool.and_eq_false_imp]
  intro hi
  have hlt : i < 16 := of_decide_eq_true hi
  rw [BitVec.testBit_toNat]
  unfold ntohl
  interval_cases i <;> simp [hhigh]

/-- The header fields of a packet with a UDP datagram. -/
structure Headers (host : Arp.Host) (src : BitVec 16) (dest : SockAddr) (msg : List Byte)
    (p : Mem) : Prop where
  head : headLen p = 20
  length : ipLen p = ntohs (msg.length + 28)
  proto : ipProto p = ipprotoUdp
  ipSrc : Ip.ipSrc p = host.ip
  ipDst : Ip.ipDst p = destination dest.addr
  udpSrc : Ip.udpSrc (payload p) = src.toNat
  udpDst : Ip.udpDst (payload p) = dest.port.toNat
  udpLen : Ip.udpLen (payload p) = 0
  udpChk : Ip.udpChk (payload p) = datagramChk host src dest msg

theorem datagramChk_lt : datagramChk host src dest msg < 2 ^ 16 := by
  rw [datagramChk, udpChecksum, transportChecksum]
  omega

theorem headers_of (hlen : msg.length + 28 ≤ 65535)
    (h : ∀ i < 28, p i = stored (udpPacket host src dest msg) beyond i) :
    Headers host src dest msg p := by
  have hword : ∀ k n, k + 1 < 28 → n < 2 ^ 16 →
      stored (udpPacket host src dest msg) beyond k = BitVec.ofNat 8 n →
      stored (udpPacket host src dest msg) beyond (k + 1) = BitVec.ofNat 8 (n / 256) →
      loadWord p k = n := by
    intro k n hk hn hlow hhigh
    rw [← h k (by omega)] at hlow
    rw [← h (k + 1) hk] at hhigh
    rw [loadWord_of hlow hhigh, Nat.mod_eq_of_lt hn]
  have hhost := host.ip.isLt
  have hdest := (destination dest.addr).isLt
  have hhead : headLen p = 20 := by
    have hfirst : stored (udpPacket host src dest msg) beyond 0 = 0x45 := rfl
    rw [headLen, ipHdrLen, h 0 (by decide), hfirst]
    rfl
  have hpayload : ∀ k, loadWord (payload p) k = loadWord p (20 + k) := by
    intro k
    rw [payload, hhead]
    rfl
  constructor
  · exact hhead
  · exact hword 2 _ (by decide) ntohs_lt rfl rfl
  · rw [ipProto, h 9 (by decide)]
    rfl
  · apply loadLong_of
    · exact hword 12 _ (by decide) (by omega) rfl rfl
    · exact hword 14 _ (by decide) (by omega) rfl rfl
  · apply loadLong_of
    · exact hword 16 _ (by decide) (by omega) rfl rfl
    · exact hword 18 _ (by decide) (by omega) rfl rfl
  · rw [Ip.udpSrc, hpayload]
    exact hword 20 _ (by decide) src.isLt rfl rfl
  · rw [Ip.udpDst, hpayload]
    exact hword 22 _ (by decide) dest.port.isLt rfl rfl
  · have hfield : loadWord p 24 =
        (ntohl (BitVec.ofNat 32 (msg.length + udpHeadLen))).toNat % 2 ^ 16 := by
      apply loadWord_of
      · exact h 24 (by decide)
      · exact h 25 (by decide)
    rw [Ip.udpLen, hpayload, hfield]
    apply ntohl_mod
    rw [BitVec.toNat_ofNat, udpHeadLen]
    omega
  · rw [Ip.udpChk, hpayload]
    exact hword 26 _ (by decide) datagramChk_lt rfl rfl

theorem words_header : words p 20 = [loadWord p 0, loadWord p 2, loadWord p 4, loadWord p 6,
    loadWord p 8, loadWord p 10, loadWord p 12, loadWord p 14, loadWord p 16, loadWord p 18] := rfl

/-- Two headers that differ in the checksum alone, which one of them leaves empty. -/
theorem sum_words_header {q : Mem} {chk : Nat}
    (hsame : ∀ k, k + 1 < 20 → k + 1 < 10 ∨ 12 ≤ k → loadWord p k = loadWord q k)
    (hfield : loadWord p 10 = chk) (hempty : loadWord q 10 = 0) :
    (words p 20).sum = (words q 20).sum + chk := by
  rw [words_header, words_header, hsame 0 (by omega) (by omega), hsame 2 (by omega) (by omega),
    hsame 4 (by omega) (by omega), hsame 6 (by omega) (by omega), hsame 8 (by omega) (by omega),
    hsame 12 (by omega) (by omega), hsame 14 (by omega) (by omega),
    hsame 16 (by omega) (by omega), hsame 18 (by omega) (by omega), hfield, hempty]
  simp only [List.sum_cons, List.sum_nil]
  omega

theorem length_ipHeader {n ttl proto chk : Nat} {srcAddr dstAddr : BitVec 32} :
    (ipHeader n ttl proto srcAddr dstAddr chk).length = 20 := by
  simp [ipHeader, wordBytes, longBytes]

/-- Apart from its own two bytes the checksum changes nothing in the header. -/
theorem getElem?_ipHeader {n ttl proto : Nat} {srcAddr dstAddr : BitVec 32} (chk : Nat) {i : Nat}
    (hi : i < 10 ∨ 12 ≤ i) : (ipHeader n ttl proto srcAddr dstAddr chk)[i]? =
      (ipHeader n ttl proto srcAddr dstAddr 0)[i]? := by
  obtain ⟨front, hfront, hsplit⟩ : ∃ front : List Byte, front.length = 10 ∧
      ∀ chk, ipHeader n ttl proto srcAddr dstAddr chk =
        front ++ (wordBytes chk ++ (longBytes srcAddr ++ longBytes dstAddr)) :=
    ⟨[0x45, 0] ++ wordBytes (ntohs n) ++ wordBytes (ntohs 0xDEAD) ++ wordBytes (ntohs 0x4000) ++
      [BitVec.ofNat 8 ttl, BitVec.ofNat 8 proto], rfl,
      fun chk => by simp only [ipHeader, List.append_assoc]⟩
  have hword : ∀ chk, (wordBytes chk).length = 2 := fun _ => rfl
  rw [hsplit, hsplit]
  rcases hi with hlow | hhigh
  · rw [List.getElem?_append_left (by omega), List.getElem?_append_left (by omega)]
  · have hpast : ∀ chk, (front ++ (wordBytes chk ++ (longBytes srcAddr ++ longBytes dstAddr)))[i]? =
        (longBytes srcAddr ++ longBytes dstAddr)[i - 12]? := by
      intro chk
      rw [List.getElem?_append_right (by omega), List.getElem?_append_right (by rw [hword]; omega),
        hword, hfront, Nat.sub_sub]
    rw [hpast, hpast]

theorem ipHeader_chk {n ttl proto : Nat} {srcAddr dstAddr : BitVec 32} (chk : Nat) :
    (ipHeader n ttl proto srcAddr dstAddr chk)[10]? = some (BitVec.ofNat 8 chk) ∧
      (ipHeader n ttl proto srcAddr dstAddr chk)[11]? = some (BitVec.ofNat 8 (chk / 256)) :=
  ⟨rfl, rfl⟩

theorem stored_ipPacket {n ttl proto : Nat} {srcAddr dstAddr : BitVec 32} {data : List Byte}
    {i : Nat} (hi : i < 20) (hchk : i < 10 ∨ 12 ≤ i) :
    stored (ipPacket n ttl proto srcAddr dstAddr data) beyond i =
      ofBytes (ipHeader n ttl proto srcAddr dstAddr 0) i := by
  have hlt : i < (ipHeader n ttl proto srcAddr dstAddr 0).length := by rwa [length_ipHeader]
  rw [stored, ipPacket, List.getElem?_append_left (by rwa [length_ipHeader]),
    getElem?_ipHeader _ hchk, ofBytes, List.getElem?_eq_getElem hlt, Option.getD_some,
    List.getD_eq_getElem _ _ hlt]

/-- The header that `send_ip_packet` builds passes the check of `to_ip_layer`. -/
theorem ipChecksum_header {n ttl proto : Nat} {srcAddr dstAddr : BitVec 32} {data : List Byte}
    (h : ∀ i < 20, p i = stored (ipPacket n ttl proto srcAddr dstAddr data) beyond i) :
    ipChecksum p 20 = 0 := by
  let q := ofBytes (ipHeader n ttl proto srcAddr dstAddr 0)
  let chk := headerChk n ttl proto srcAddr dstAddr
  have hsame : ∀ k, k + 1 < 20 → k + 1 < 10 ∨ 12 ≤ k → loadWord p k = loadWord q k := by
    intro k hk hchk
    have hlow : p k = q k := (h k (by omega)).trans (stored_ipPacket (by omega) (by omega))
    have hhigh : p (k + 1) = q (k + 1) := (h (k + 1) hk).trans (stored_ipPacket hk (by omega))
    rw [loadWord, loadWord, hlow, hhigh]
  have hchk : chk = 65535 - fold16 (words q 20).sum := ipChecksum_eq
  have hfield : loadWord p 10 = chk := by
    have hbyte : ∀ i < 20, p i =
        ((ipHeader n ttl proto srcAddr dstAddr chk)[i]?).getD (beyond i) := by
      intro i hi
      rw [h i hi, stored, ipPacket, List.getElem?_append_left (by rwa [length_ipHeader])]
    have hword : loadWord p 10 = chk % 2 ^ 16 := by
      apply loadWord_of
      · rw [hbyte 10 (by omega), (ipHeader_chk chk).1, Option.getD_some]
      · rw [hbyte 11 (by omega), (ipHeader_chk chk).2, Option.getD_some]
    omega
  have hempty : loadWord q 10 = 0 := rfl
  rw [ipChecksum_eq, sum_words_header hsame hfield hempty, hchk, fold16_add_complement]

theorem udpChecksum_empty {srcAddr dstAddr : BitVec 32} :
    udpChecksum p 0 srcAddr dstAddr = 0 ↔ pseudoSum ipprotoUdp 0 srcAddr dstAddr % 65535 = 0 := by
  have hpos : pseudoSum ipprotoUdp 0 srcAddr dstAddr ≠ 0 := by
    have hproto : ntohs ipprotoUdp = 4352 := rfl
    rw [pseudoSum, hproto]
    omega
  have hsum : udpChecksum p 0 srcAddr dstAddr =
      65535 - fold16 (pseudoSum ipprotoUdp 0 srcAddr dstAddr) := by
    have hdata : (words p 0).sum + (oddByte p 0 + pseudoSum ipprotoUdp 0 srcAddr dstAddr) =
        pseudoSum ipprotoUdp 0 srcAddr dstAddr := by
      simp [words, oddByte]
    rw [udpChecksum, transportChecksum_eq, hdata]
  have hlt : fold16 (pseudoSum ipprotoUdp 0 srcAddr dstAddr) < 65536 := fold16_lt
  have hiff := fold16_eq_iff (n := pseudoSum ipprotoUdp 0 srcAddr dstAddr)
  rw [hsum]
  omega

variable (receiver env beyond) in
theorem toIpLayer_udpPacket (hlen : msg.length + 28 ≤ 65535) :
    (∃ m, toIpLayer receiver env (stored (udpPacket host src dest msg) beyond) = some m) ↔
      datagramChk host src dest msg = 0 ∨ emptySum host dest % 65535 = 0 := by
  have hfields := headers_of (p := stored (udpPacket host src dest msg) beyond) hlen
    fun _ _ => rfl
  have hchk : ipChecksum (stored (udpPacket host src dest msg) beyond)
      (headLen (stored (udpPacket host src dest msg) beyond)) = 0 := by
    rw [hfields.head]
    exact ipChecksum_header fun _ _ => rfl
  have hzero : ntohs 0 = 0 := rfl
  rw [toIpLayer_isSome hchk, Accepts, hfields.proto, if_neg (by decide), if_neg (by decide),
    if_pos rfl, hfields.udpChk, hfields.udpLen, hfields.ipSrc, hfields.ipDst, hzero,
    udpChecksum_empty, emptySum]

theorem toIpLayer_udpPacket_eq (hlen : msg.length + 28 ≤ 65535)
    (h : toIpLayer receiver env (stored (udpPacket host src dest msg) beyond) = some m) :
    m = stored (udpPacket host src dest msg) beyond := by
  have hfields := headers_of (p := stored (udpPacket host src dest msg) beyond) hlen
    fun _ _ => rfl
  refine (toIpLayer_eq h).resolve_left fun hanswered => ?_
  have hproto := hanswered.1
  rw [hfields.proto] at hproto
  exact absurd hproto (by decide)

/-- What the receiver copies out of a packet with these headers. -/
theorem Headers.udpRecvfrom_eq (h : Headers host src dest msg p) (hlen : msg.length + 28 ≤ 65535)
    {len : Nat} (hroom : msg.length ≤ len) :
    udpRecvfrom p len false =
      ⟨28, bytesAt p 28 msg.length, ⟨afInet, src, host.ip⟩, msg.length⟩ := by
  have hpayload : payloadLen p = msg.length + 8 := by
    rw [payloadLen, h.length, h.head, ntohs_ntohs (by omega), sub32_of_le (by omega) (by omega)]
    omega
  have hudp : sub32 (payloadLen p) 8 = msg.length := by
    rw [hpayload, sub32_of_le (by omega) (by omega)]
    omega
  have hsrc : BitVec.ofNat 16 (Ip.udpSrc (payload p)) = src := by
    rw [h.udpSrc, BitVec.ofNat_toNat, BitVec.setWidth_eq]
  simp only [udpRecvfrom, udpHeadLen, hudp, hsrc, h.head, h.ipSrc, Nat.min_eq_right hroom]
  rfl

/-- The bound receiver gets the message if the bytes behind these headers are it. -/
theorem Headers.receives_iff (h : Headers host src dest msg p) (hlen : msg.length + 28 ≤ 65535) :
    Receives receiver p ⟨afInet, src, host.ip⟩ dest msg ↔ bytesAt p 28 msg.length = msg := by
  constructor
  · intro hreceives
    have hany : ipPacketFilter receiver host.ip (destination dest.addr)
        ⟨afInet, dest.port, Arp.inaddrAny⟩ = false :=
      if_pos ⟨rfl, .inr (.inl rfl)⟩
    obtain ⟨-, hcopy⟩ := hreceives ⟨afInet, dest.port, Arp.inaddrAny⟩ rfl hany
    have hdata := (hcopy msg.length (by omega) le_rfl).1
    rw [h.udpRecvfrom_eq hlen le_rfl] at hdata
    exact hdata
  · intro hbytes sock hport hfilter
    refine ⟨⟨h.proto, ?_, ?_⟩, ?_⟩
    · rw [h.ipSrc, h.ipDst]
      exact hfilter
    · rw [h.udpDst, hport]
    · intro len _ hroom
      rw [h.udpRecvfrom_eq hlen hroom]
      exact ⟨hbytes, rfl, rfl⟩

theorem stored_udpPacket {i : Nat} (hi : i < msg.length) :
    stored (udpPacket host src dest msg) beyond (i + 28) = msg[i] := by
  have hget : (udpPacket host src dest msg)[i + 28]? = msg[i]? := rfl
  rw [stored, hget, List.getElem?_eq_getElem hi, Option.getD_some]

/-- A packet that is as long as its length field says before the exchange, or shorter. -/
theorem receives_of_le (hlen : msg.length + 28 ≤ 65535)
    (hfits : msg.length + 28 ≤ ntohs (msg.length + 28)) (beyond beyond' : Mem) :
    Receives receiver
      (stored (pushIpPacket (stored (udpPacket host src dest msg) beyond)) beyond')
      ⟨afInet, src, host.ip⟩ dest msg := by
  have hfields := headers_of (p := stored (udpPacket host src dest msg) beyond) hlen
    fun _ _ => rfl
  have hcopy : ∀ i < msg.length + 28,
      stored (pushIpPacket (stored (udpPacket host src dest msg) beyond)) beyond' i =
        stored (udpPacket host src dest msg) beyond i := by
    intro i hi
    rw [pushIpPacket, hfields.length]
    exact stored_bytesAt (by omega)
  have hview := headers_of hlen fun i hi => hcopy i (by omega)
  rw [hview.receives_iff hlen]
  apply List.ext_getElem length_bytesAt
  intro i hi hi'
  rw [← Option.some_inj, ← List.getElem?_eq_getElem, getElem?_bytesAt hi', Nat.add_comm,
    hcopy (i + 28) (by omega), stored_udpPacket hi']

variable (receiver) in
/-- Of a longer packet the last byte was not stored. -/
theorem not_receives_of_lt (hlen : msg.length + 28 ≤ 65535)
    (hlt : ntohs (msg.length + 28) < msg.length + 28) (beyond : Mem) :
    ∃ beyond', ¬Receives receiver
      (stored (pushIpPacket (stored (udpPacket host src dest msg) beyond)) beyond')
      ⟨afInet, src, host.ip⟩ dest msg := by
  have hfields := headers_of (p := stored (udpPacket host src dest msg) beyond) hlen
    fun _ _ => rfl
  have hpos : 0 < msg.length := by
    by_contra hzero
    have hempty : msg.length = 0 := by omega
    rw [hempty] at hlt
    exact absurd hlt (by decide)
  let last := msg.length - 1
  let m := stored (udpPacket host src dest msg) beyond
  -- what lies behind the copy happens to be the rest of the packet, up to its last byte
  let beyond' := Function.update m (last + 28) (m (last + 28) + 1)
  refine ⟨beyond', fun hreceives => ?_⟩
  have hcopy : ∀ i, stored (pushIpPacket m) beyond' i = beyond' i := by
    intro i
    rw [pushIpPacket, hfields.length]
    by_cases hi : i < ntohs (msg.length + 28)
    · rw [stored_bytesAt hi]
      exact (Function.update_of_ne (by omega) _ _).symm
    · rw [stored, List.getElem?_eq_none (by rw [length_bytesAt]; omega), Option.getD_none]
  have hview : Headers host src dest msg (stored (pushIpPacket m) beyond') := by
    apply headers_of hlen
    intro i hi
    rw [hcopy]
    exact Function.update_of_ne (by omega) _ _
  have hbytes := (hview.receives_iff hlen).mp hreceives
  have hlast := congrArg (fun bytes => bytes[last]?) hbytes
  have hlt' : last < msg.length := by omega
  rw [getElem?_bytesAt hlt', List.getElem?_eq_getElem hlt', hcopy, Nat.add_comm] at hlast
  have hchanged : m (last + 28) + 1 = m (last + 28) := by
    have hvalue : m (last + 28) = msg[last] := stored_udpPacket hlt'
    have hstored : beyond' (last + 28) = m (last + 28) + 1 := Function.update_self _ _ _
    rw [← hstored, Option.some.inj hlast, hvalue]
  exact absurd (BitVec.add_right_eq_self.mp hchanged) (by decide)

/-- Exactly when a packet of `udp_sendto` makes the round trip. -/
theorem roundTrip_iff (host receiver : Arp.Host) (env : TcpEnv) (mem memIp : Bool)
    (src : BitVec 16) (dest : SockAddr) (msg packet : List Byte)
    (h : udpSendto host mem memIp src dest msg = .ok packet) :
    RoundTrip receiver env packet ⟨afInet, src, host.ip⟩ dest msg ↔
      Deliverable host src dest msg := by
  obtain ⟨rfl, hlen⟩ := udpSendto_ok h
  constructor
  · intro htrip
    obtain ⟨m, hpush, hreceives⟩ := htrip fun _ => 0
    refine ⟨?_, (toIpLayer_udpPacket receiver env _ hlen).mp ⟨m, hpush⟩⟩
    by_contra hlt
    rw [toIpLayer_udpPacket_eq hlen hpush] at hreceives
    obtain ⟨beyond', hnot⟩ := not_receives_of_lt receiver hlen (not_le.mp hlt) _
    exact hnot (hreceives beyond')
  · rintro ⟨hfits, hchk⟩ beyond
    obtain ⟨m, hpush⟩ := (toIpLayer_udpPacket receiver env beyond hlen).mpr hchk
    refine ⟨m, hpush, fun beyond' => ?_⟩
    rw [toIpLayer_udpPacket_eq hlen hpush]
    exact receives_of_le hlen hfits beyond beyond'

def sendingHost : Arp.Host := ⟨none, 0x0700000A, 0x000000FF⟩

def greeting : List Byte := [0x68, 0x69]

/-- From 10.0.0.7 to 10.168.235.63 the sum without any data checks. -/
def luckyDest : SockAddr := ⟨afInet, 53, 0x3FEBA80A⟩

theorem roundTrip_iff_greeting :
    RoundTrip exampleHost ⟨none, true, 0⟩ (udpPacket sendingHost 1025 luckyDest greeting)
      ⟨afInet, 1025, 0x0700000A⟩ luckyDest greeting :=
  (roundTrip_iff sendingHost exampleHost ⟨none, true, 0⟩ true true 1025 luckyDest greeting _
    rfl).mpr ⟨by decide, .inr (by decide)⟩

def usualDest : SockAddr := ⟨afInet, 53, 0x0100000A⟩

/-- From 10.0.0.7 to 10.0.0.1 it does not, and the receiver drops the packet. -/
theorem greeting_dropped :
    udpSendto sendingHost true true 1025 usualDest greeting =
        .ok (udpPacket sendingHost 1025 usualDest greeting) ∧
      ¬RoundTrip exampleHost ⟨none, true, 0⟩ (udpPacket sendingHost 1025 usualDest greeting)
        ⟨afInet, 1025, 0x0700000A⟩ usualDest greeting := by
  refine ⟨rfl, fun htrip => ?_⟩
  obtain ⟨m, hpush, -⟩ := htrip fun _ => 0
  have hchk := (toIpLayer_udpPacket exampleHost _ _ (by decide)).mp ⟨m, hpush⟩
  exact absurd hchk (by decide)

end OsdevArchive.Minirighi.Ip
