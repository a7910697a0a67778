import OsdevArchive.Minirighi.Ip

/-!
What the store of received IP packets keeps. `push_ip_packet` copies as many bytes
as the length field says before its bytes are exchanged, and the receivers copy out
what the header length and the exchanged field say; neither is compared with the
other. Before that, TCP may have written its answer over the packet.
-/

namespace OsdevArchive.Minirighi.Ip

open OsdevArchive.Lib.OnesComplement OsdevArchive.Minirighi.Inet OsdevArchive.Minirighi.Tcp

/-- A receiver copies the bytes of the packet that was received, from `start` on, and
none from outside of the stored copy. -/
def Faithful (m : Mem) (copy : List Byte) (start len : Nat) (r : Received) : Prop :=
  r.start + r.data.length ≤ copy.length ∧
    r.data = (bytesAt m start (ntohs (ipLen m) - start)).take len

/-- What the store promises for a packet `m` that is pushed as `m'`: the copy has all
its bytes, and every receiver that finds the copy gets those of the payload. -/
structure Kept (m m' : Mem) : Prop where
  whole : (pushIpPacket m').take (ntohs (ipLen m)) = bytesAt m 0 (ntohs (ipLen m))
  ip : ∀ beyond trunc, ∀ len < 2 ^ 32, Faithful m (pushIpPacket m') (headLen m) len
    (ipRecvfrom (stored (pushIpPacket m') beyond) len trunc)
  udp : ∀ beyond, ipProto (stored (pushIpPacket m') beyond) = ipprotoUdp →
    ∀ trunc, ∀ len < 2 ^ 32, Faithful m (pushIpPacket m') (headLen m + udpHeadLen) len
      (udpRecvfrom (stored (pushIpPacket m') beyond) len trunc)

/-- When it keeps that promise: the header is within the packet, with the UDP header
for UDP, the length does not exceed the same bytes in the other order, and if TCP
answered the packet, the answer it wrote over it has the same bytes. -/
structure Storable (env : TcpEnv) (m m' : Mem) : Prop where
  head : headLen m ≤ ntohs (ipLen m)
  udpHead : ipProto m' = ipprotoUdp → headLen m + udpHeadLen ≤ ntohs (ipLen m)
  length : ntohs (ipLen m) ≤ ipLen m
  unchanged : Answered env m → ∀ i < ntohs (ipLen m), m' i = m i

variable {m m' p : Mem} {off n len i : Nat} {bytes : List Byte} {beyond : Mem}

@[simp] theorem length_bytesAt : (bytesAt m off n).length = n := by
  simp [bytesAt]

theorem getElem?_bytesAt (h : i < n) : (bytesAt m off n)[i]? = some (m (off + i)) := by
  simp [bytesAt, h]

theorem bytesAt_congr (h : ∀ i < n, m (off + i) = m' (off + i)) :
    bytesAt m off n = bytesAt m' off n :=
  List.map_congr_left fun i hi => h i (List.mem_range.mp hi)

theorem take_bytesAt (len : Nat) : (bytesAt m off n).take len = bytesAt m off (min len n) := by
  rw [bytesAt, bytesAt, ← List.map_take, List.take_range]

theorem stored_bytesAt (h : i < n) : stored (bytesAt m 0 n) beyond i = m i := by
  rw [stored, getElem?_bytesAt h, Nat.zero_add, Option.getD_some]

/-- A copy behind which the packet goes on. -/
theorem stored_self : stored (bytesAt m 0 n) m = m := by
  funext i
  by_cases h : i < n
  · exact stored_bytesAt h
  · rw [stored, List.getElem?_eq_none (by simpa using h), Option.getD_none]

theorem headLen_le : headLen m ≤ 60 := by
  unfold headLen ipHdrLen
  omega

theorem headLen_pos (h : ipChecksum m (headLen m) = 0) : 4 ≤ headLen m := by
  by_contra hlt
  have hzero : headLen m = 0 := by
    unfold headLen at hlt ⊢
    omega
  have hempty : ipChecksum m 0 = 65535 := by
    simp [ipChecksum, words, accumulate, carries]
  rw [hzero, hempty] at h
  exact absurd h (by decide)

theorem headLen_congr (h : m 0 = m' 0) : headLen m = headLen m' := by
  rw [headLen, headLen, ipHdrLen, ipHdrLen, h]

theorem ipLen_congr (h : ∀ i < 4, m i = m' i) : ipLen m = ipLen m' := by
  rw [ipLen, ipLen, loadWord, loadWord, h 2 (by decide), h 3 (by decide)]

/-- `to_udp_layer` restores the checksum field of a packet that it accepts. -/
theorem toUdpLayer_eq {src dst : BitVec 32} (h : toUdpLayer m src dst = some m') : m' = m := by
  unfold toUdpLayer at h
  split at h
  · exact (Option.some.inj h).symm
  rename_i hused
  split at h
  · cases h
  by_cases hmax : udpChk m = 0xFFFF
  · have hchk : withChk m = store m 6 (wordBytes 0) := if_pos hmax
    have hzero : udpChk (store m 6 (wordBytes 0)) = 0 := loadWord_store (by decide)
    have hsame : store m 6 (wordBytes 0xFFFF) = m := by
      rw [← hmax]
      exact store_loadWord
    rw [hchk, if_pos hzero, store_store, hsame] at h
    exact (Option.some.inj h).symm
  · have hchk : withChk m = m := if_neg hmax
    rw [hchk, if_neg hused] at h
    exact (Option.some.inj h).symm

/-- The headers of what is pushed are those of what was received. -/
theorem toIpLayer_head {host : Arp.Host} {env : TcpEnv} (h : toIpLayer host env m = some m') :
    ipChecksum m (headLen m) = 0 ∧ ∀ i < headLen m, m' i = m i := by
  have hpayload : ∀ q : Mem, ∀ i < headLen m, withPayload m q i = m i := fun q i hi => if_pos hi
  unfold toIpLayer at h
  split at h
  · cases h
  · rename_i hchk
    refine ⟨not_not.mp hchk, ?_⟩
    split at h
    · split at h
      · obtain rfl := Option.some.inj h
        exact fun _ _ => rfl
      · cases h
    split at h
    · obtain rfl := Option.some.inj h
      exact fun _ _ => rfl
    split at h
    · split at h
      · obtain rfl := Option.some.inj h
        exact hpayload _
      · cases h
      · cases h
    split at h
    · obtain ⟨q, -, rfl⟩ := Option.map_eq_some_iff.mp h
      exact hpayload q
    · obtain rfl := Option.some.inj h
      exact fun _ _ => rfl

theorem withPayload_payload : withPayload m (payload m) = m := by
  funext i
  unfold withPayload payload shift
  split
  · rfl
  · rw [Nat.add_sub_cancel' (by omega)]

/-- A packet that TCP does not answer is pushed as it was received. -/
theorem toIpLayer_eq {host : Arp.Host} {env : TcpEnv} (h : toIpLayer host env m = some m') :
    Answered env m ∨ m' = m := by
  unfold toIpLayer at h
  split at h
  · cases h
  split at h
  · split at h
    · exact .inr (Option.some.inj h).symm
    · cases h
  split at h
  · exact .inr (Option.some.inj h).symm
  split at h
  · rename_i htcp
    split at h
    · rename_i result hresult
      by_cases hsent : result.sent = none
      · right
        have hsame : result.packet = payload m := by
          rcases toTcpLayer_answer hresult with ⟨-, hpacket⟩ | hanswer | hanswer
          · exact hpacket
          all_goals
            rw [hsent] at hanswer
            cases hanswer
        rw [← Option.some.inj h, hsame, withPayload_payload]
      · left
        refine ⟨htcp, ?_⟩
        rw [hresult]
        exact hsent
    all_goals cases h
  split at h
  · obtain ⟨q, hq, rfl⟩ := Option.map_eq_some_iff.mp h
    rw [toUdpLayer_eq hq, withPayload_payload]
    exact .inr rfl
  · exact .inr (Option.some.inj h).symm

variable {copy : List Byte} {start : Nat} {r : Received}

theorem udpPayloadLen : sub32 (payloadLen m) udpHeadLen =
    sub32 (ntohs (ipLen m)) (headLen m + udpHeadLen) := by
  have hlen : ntohs (ipLen m) < 2 ^ 16 := ntohs_lt
  have hhead : headLen m ≤ 60 := headLen_le
  unfold payloadLen sub32 wrap udpHeadLen
  omega

/-- A receiver that starts within a packet which is all in the copy. -/
theorem faithful_of_le (hstart : start ≤ ntohs (ipLen m)) (hcopy : ntohs (ipLen m) ≤ copy.length)
    (hsame : ∀ i < ntohs (ipLen m), p i = m i) (hr : r.start = start)
    (hdata : r.data = bytesAt p start (min len (sub32 (ntohs (ipLen m)) start))) :
    Faithful m copy start len r := by
  have hlen : ntohs (ipLen m) < 2 ^ 16 := ntohs_lt
  rw [sub32_of_le hstart (by omega)] at hdata
  constructor
  · rw [hr, hdata, length_bytesAt]
    omega
  · rw [hdata, take_bytesAt]
    exact bytesAt_congr fun i hi => hsame _ (by omega)

/-- A receiver that starts behind the end of the packet takes the length for a huge
one, and leaves any copy. -/
theorem start_le_of_faithful (hstart : start ≤ 68) (hcopy : copy.length < 65536)
    (hr : r.start = start)
    (hdata : r.data = bytesAt p start (min 65536 (sub32 (ntohs (ipLen m)) start)))
    (h : Faithful m copy start 65536 r) : start ≤ ntohs (ipLen m) := by
  by_contra hlt
  have hinside := h.1
  have hlen : ntohs (ipLen m) < 2 ^ 16 := ntohs_lt
  have hhuge : 65536 ≤ sub32 (ntohs (ipLen m)) start := by
    unfold sub32 wrap
    omega
  rw [hr, hdata, length_bytesAt, Nat.min_eq_left hhuge] at hinside
  omega

variable {env : TcpEnv}

/-- A copy with all the bytes of the packet: what the receivers see of it. -/
theorem stored_copy (hpos : 4 ≤ headLen m) (h : Storable env m m')
    (hunchanged : ∀ i < ntohs (ipLen m), m' i = m i) (hsame : ipLen m' = ipLen m) (beyond : Mem) :
    (∀ i < ntohs (ipLen m), stored (pushIpPacket m') beyond i = m i) ∧
      ipProto (stored (pushIpPacket m') beyond) = ipProto m' := by
  have hhead := h.head
  have hlength := h.length
  have hlt : ipLen m < 2 ^ 16 := loadWord_lt
  have hswap := ntohs_div_mod hlt
  have hcopy : ∀ i < ipLen m, stored (pushIpPacket m') beyond i = m' i := by
    intro i hi
    rw [pushIpPacket, hsame]
    exact stored_bytesAt hi
  constructor
  · intro i hi
    rw [hcopy i (by omega), hunchanged i hi]
  · rw [ipProto, hcopy 9 (by omega), ipProto]

theorem Storable.kept (h : Storable env m m') (hpos : 4 ≤ headLen m)
    (hunchanged : ∀ i < ntohs (ipLen m), m' i = m i) (hsame : ipLen m' = ipLen m) :
    Kept m m' := by
  have hhead := h.head
  have hcopy : ntohs (ipLen m) ≤ (pushIpPacket m').length := by
    rw [pushIpPacket, length_bytesAt, hsame]
    exact h.length
  have hview : ∀ beyond, headLen (stored (pushIpPacket m') beyond) = headLen m ∧
      ipLen (stored (pushIpPacket m') beyond) = ipLen m := by
    intro beyond
    obtain ⟨hbytes, -⟩ := stored_copy hpos h hunchanged hsame beyond
    exact ⟨headLen_congr (hbytes 0 (by omega)), ipLen_congr fun i hi => hbytes i (by omega)⟩
  refine ⟨?_, ?_, ?_⟩
  · rw [pushIpPacket, hsame, take_bytesAt, Nat.min_eq_left h.length]
    exact bytesAt_congr fun i hi => by
      rw [Nat.zero_add]
      exact hunchanged i hi
  · intro beyond trunc len _
    obtain ⟨hviewHead, hviewLen⟩ := hview beyond
    apply faithful_of_le hhead hcopy (stored_copy hpos h hunchanged hsame beyond).1
    · exact hviewHead
    · simp only [ipRecvfrom, payloadLen, hviewHead, hviewLen]
  · intro beyond hproto trunc len _
    obtain ⟨hviewHead, hviewLen⟩ := hview beyond
    obtain ⟨hbytes, hsameProto⟩ := stored_copy hpos h hunchanged hsame beyond
    rw [hsameProto] at hproto
    apply faithful_of_le (h.udpHead hproto) hcopy hbytes
    · rw [udpRecvfrom, hviewHead]
    · simp only [udpRecvfrom, udpPayloadLen, hviewHead, hviewLen]

/-- What is kept was storable: the receivers with a large buffer show it. -/
theorem Kept.storable (h : Kept m m') (hhead : headLen m' = headLen m)
    (hsame : ipLen m' = ipLen m) : Storable env m m' := by
  have hwhole := h.whole
  have hlt : ipLen m < 2 ^ 16 := loadWord_lt
  have hbound : headLen m ≤ 60 := headLen_le
  have hcopy : (pushIpPacket m').length < 65536 := by
    rw [pushIpPacket, length_bytesAt, hsame]
    exact hlt
  have hself : stored (pushIpPacket m') m' = m' := stored_self
  have hlength : ntohs (ipLen m) ≤ ipLen m := by
    have hcount := congrArg List.length hwhole
    rw [pushIpPacket, hsame, List.length_take, length_bytesAt, length_bytesAt] at hcount
    omega
  refine ⟨?_, ?_, hlength, ?_⟩
  · have hip := h.ip m' false 65536 (by decide)
    rw [hself] at hip
    refine start_le_of_faithful (p := m') (by omega) hcopy hhead ?_ hip
    simp only [ipRecvfrom, payloadLen, hhead, hsame]
  · intro hproto
    have hudp := h.udp m' (by rw [hself]; exact hproto) false 65536 (by decide)
    rw [hself] at hudp
    refine start_le_of_faithful (p := m') (by unfold udpHeadLen; omega) hcopy ?_ ?_ hudp
    · rw [udpRecvfrom, hhead]
    · simp only [udpRecvfrom, udpPayloadLen, hhead, hsame]
  · intro _ i hi
    rw [pushIpPacket, hsame, take_bytesAt, Nat.min_eq_left hlength] at hwhole
    have hbyte := congrArg (fun bytes => bytes[i]?) hwhole
    rw [getElem?_bytesAt hi, getElem?_bytesAt hi, Nat.zero_add] at hbyte
    exact Option.some.inj hbyte

/-- Exactly when the store keeps a packet that `to_ip_layer` accepts. -/
theorem kept_iff (host : Arp.Host) (env : TcpEnv) (m m' : Mem)
    (h : toIpLayer host env m = some m') : Kept m m' ↔ Storable env m m' := by
  obtain ⟨hchk, hheader⟩ := toIpLayer_head h
  have hpos := headLen_pos hchk
  have hhead : headLen m' = headLen m := headLen_congr (hheader 0 (by omega))
  have hsame : ipLen m' = ipLen m := ipLen_congr fun i hi => hheader i (by omega)
  constructor
  · intro hkept
    exact hkept.storable hhead hsame
  · intro hstorable
    have hunchanged : ∀ i < ntohs (ipLen m), m' i = m i :=
      (toIpLayer_eq h).elim hstorable.unchanged fun hm' i _ => congrFun hm' i
    exact hstorable.kept hpos hunchanged hsame

/-- A packet of an unknown protocol, with 20 bytes. -/
def shortPacket : Mem := ofBytes
  [0x45, 0, 0, 20, 0, 0, 0, 0, 64, 200, 102, 27, 10, 0, 0, 7, 10, 0, 0, 1]

/-- The same with 256 bytes: with its bytes exchanged the length is one. -/
def evenPacket : Mem := ofBytes
  [0x45, 0, 1, 0, 0, 0, 0, 0, 64, 200, 101, 47, 10, 0, 0, 7, 10, 0, 0, 1]

def exampleHost : Arp.Host := ⟨none, 0x0100000A, 0x00FFFFFF⟩

/-- Both are pushed as they are. -/
theorem toIpLayer_unknown {host : Arp.Host} {env : TcpEnv} (hchk : ipChecksum m (headLen m) = 0)
    (hproto : 17 < ipProto m) : toIpLayer host env m = some m := by
  unfold toIpLayer ipprotoIcmp ipprotoIgmp ipprotoTcp ipprotoUdp
  rw [if_neg (not_not_intro hchk), if_neg (by omega), if_neg (by omega), if_neg (by omega),
    if_neg (by omega)]

theorem kept_iff_shortPacket : Kept shortPacket shortPacket :=
  (kept_iff exampleHost ⟨none, true, 0⟩ shortPacket shortPacket
    (toIpLayer_unknown (by decide) (by decide))).mpr
    ⟨by decide, fun h => absurd h (by decide), by decide, fun _ _ _ => rfl⟩

/-- Of 256 bytes one is stored. -/
theorem evenPacket_not_kept : toIpLayer exampleHost ⟨none, true, 0⟩ evenPacket = some evenPacket ∧
    ¬Kept evenPacket evenPacket := by
  refine ⟨toIpLayer_unknown (by decide) (by decide), fun h => ?_⟩
  have hcount := congrArg List.length h.whole
  rw [pushIpPacket, List.length_take, length_bytesAt, length_bytesAt] at hcount
  exact absurd hcount (by decide)

end OsdevArchive.Minirighi.Ip
