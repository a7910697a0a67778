import OsdevArchive.Minirighi.Ip

/-!
The checksums of minirighi. That of IP and ICMP (`network/ip.c`, `network/icmp.c`): the IP header
has a length that is a multiple of four; an ICMP message has any length, and `ip_checksum` leaves
its last byte out when that is odd. That of UDP and TCP (`udp_checksum` in `network/udp.c`,
`tcp_checksum` in `network/tcp.c`): the one's complement sum of a pseudo-header and the segment,
with an odd last byte padded with zero. A segment has less than `2 ^ 16` bytes, and the 32-bit
accumulator holds its sum with no carry lost.
-/

namespace OsdevArchive.Minirighi.Ip

open OsdevArchive.Lib.OnesComplement
open OsdevArchive.Minirighi.Arp OsdevArchive.Minirighi.Inet OsdevArchive.Minirighi.Tcp

/-! ## IP and ICMP -/

section

/-- The words of a buffer, with an odd last byte padded with zero. -/
def paddedWords (m : Mem) (len : Nat) : List Nat :=
  words m len ++ if len % 2 = 1 then [(m (len - 1)).toNat] else []

/-- The one's complement of the one's complement sum of the words. -/
def rfcChecksum (m : Mem) (len : Nat) : Nat := 65535 - onesSum (paddedWords m len)

/-- The checksum is the one of the words with an odd last byte padded, and where it is stored in a
field of the buffer, which was zero, the checksum is zero. -/
structure Checks (m : Mem) (len : Nat) : Prop where
  value : ipChecksum m len = rfcChecksum m len
  field : ∀ off, off % 2 = 0 → off + 2 ≤ len → loadWord m off = 0 →
    ipChecksum (store m off (wordBytes (ipChecksum m len))) len = 0

variable {m : Mem} {len off n : Nat}

theorem sum_paddedWords : (paddedWords m len).sum = (words m len).sum + oddByte m len := by
  unfold paddedWords oddByte
  rw [List.sum_append]
  split
  · rw [List.sum_singleton]
  · rfl

theorem paddedWords_lt : ∀ word ∈ paddedWords m len, word < 65536 := by
  intro word hword
  rcases List.mem_append.mp hword with hword | hword
  · exact words_lt word hword
  · split at hword
    · rw [List.mem_singleton.mp hword]
      have hbyte := (m (len - 1)).isLt
      omega
    · cases hword

theorem rfcChecksum_eq (m : Mem) (len : Nat) :
    rfcChecksum m len = 65535 - fold16 ((words m len).sum + oddByte m len) := by
  rw [rfcChecksum, onesSum_eq paddedWords_lt, sum_paddedWords]

/-- The value is right exactly if no last byte is left out. -/
theorem ipChecksum_eq_rfc : ipChecksum m len = rfcChecksum m len ↔ oddByte m len = 0 := by
  have hodd : oddByte m len < 256 := oddByte_lt
  have hiff := fold16_add_eq_iff (n := (words m len).sum) (k := oddByte m len) (by omega)
  have hlt : fold16 ((words m len).sum + oddByte m len) < 65536 := fold16_lt
  have hlt' : fold16 (words m len).sum < 65536 := fold16_lt
  rw [ipChecksum_eq, rfcChecksum_eq, ← hiff]
  omega

theorem oddByte_eq_zero : oddByte m len = 0 ↔ len % 2 = 0 ∨ m (len - 1) = 0 := by
  have hzero : (m (len - 1)).toNat = 0 ↔ m (len - 1) = 0 :=
    ⟨fun h => BitVec.eq_of_toNat_eq h, fun h => by rw [h]; rfl⟩
  unfold oddByte
  split
  · rw [hzero]
    exact (or_iff_right (by omega)).symm
  · exact iff_of_true rfl (Or.inl (by omega))

/-- One element of a sum changes from zero to `k`. -/
theorem sum_map_update {f g : Nat → Nat} {j k : Nat} (hj : j < n) (hzero : f j = 0) (hk : g j = k)
    (hsame : ∀ i, i ≠ j → g i = f i) :
    ((List.range n).map g).sum = ((List.range n).map f).sum + k := by
  induction n with
  | zero => cases hj
  | succ n ih =>
    rw [List.range_succ, List.map_append, List.map_append, List.sum_append, List.sum_append,
      List.map_singleton, List.map_singleton, List.sum_singleton, List.sum_singleton]
    rcases Nat.lt_or_eq_of_le (Nat.le_of_lt_succ hj) with hlt | rfl
    · rw [ih hlt, hsame n (by omega), Nat.add_right_comm]
    · have hfront : (List.range j).map g = (List.range j).map f := by
        apply List.map_congr_left
        intro i hi
        exact hsame i (Nat.ne_of_lt (List.mem_range.mp hi))
      rw [hfront, hzero, hk, Nat.add_zero]

/-- Storing a word in a field that was zero adds it to the sum. -/
theorem sum_words_store (heven : off % 2 = 0) (hoff : off + 2 ≤ len) (hzero : loadWord m off = 0)
    (hn : n < 2 ^ 16) : (words (store m off (wordBytes n)) len).sum = (words m len).sum + n := by
  have hdouble : 2 * (off / 2) = off := by omega
  unfold words
  apply sum_map_update (j := off / 2)
  · omega
  · rw [hdouble, hzero]
  · rw [hdouble, loadWord_store hn]
  · intro i hi
    unfold loadWord
    rw [store_wordBytes, store_wordBytes, if_neg (by omega), if_neg (by omega), if_neg (by omega),
      if_neg (by omega)]

/-- A checksum that is stored in its field, which was zero, checks. -/
theorem ipChecksum_store (heven : off % 2 = 0) (hoff : off + 2 ≤ len)
    (hzero : loadWord m off = 0) :
    ipChecksum (store m off (wordBytes (ipChecksum m len))) len = 0 := by
  have hchk : ipChecksum m len = 65535 - fold16 (words m len).sum := ipChecksum_eq
  rw [ipChecksum_eq, sum_words_store heven hoff hzero (by omega), hchk, fold16_add_complement]

/-- The checksum is as it should be exactly for an even length, and for a last byte that is zero. -/
theorem checks_iff (m : Mem) (len : Nat) : Checks m len ↔ len % 2 = 0 ∨ m (len - 1) = 0 := by
  rw [← oddByte_eq_zero, ← ipChecksum_eq_rfc]
  exact ⟨fun h => h.value, fun h => ⟨h, fun _ => ipChecksum_store⟩⟩

/-- An echo request with one byte of data. -/
def onePing : Mem := ofBytes [8, 0, 0, 0, 0x12, 0x34, 0, 1, 0x41]

/-- The byte of data is left out. -/
theorem onePing_misses : ¬Checks onePing 9 := by
  intro h
  exact absurd (ipChecksum_eq_rfc.mp h.value) (by decide)

/-! ## The layers -/

def icmpEchoReply : Nat := 0

/-- The message that `icmp_fast_echo_reply` sends. -/
def icmpFastEchoReply (packet : Mem) (size : Nat) : Mem :=
  let packet := store packet 0 [BitVec.ofNat 8 icmpEchoReply]
  let packet := store packet 2 (wordBytes 0)
  store packet 2 (wordBytes (ipChecksum packet size))

/-- A reply passes the check of this driver. -/
theorem ipChecksum_echoReply (packet : Mem) {size : Nat} (hsize : 4 ≤ size) :
    ipChecksum (icmpFastEchoReply packet size) size = 0 := by
  apply ipChecksum_store (by decide) hsize
  exact loadWord_store (by decide)

/-- But not the check of a receiver that does not leave out the last byte. -/
theorem rfcChecksum_echoReply (packet : Mem) {size : Nat} (hsize : 4 ≤ size) :
    rfcChecksum (icmpFastEchoReply packet size) size = 0 ↔
      size % 2 = 0 ∨ icmpFastEchoReply packet size (size - 1) = 0 := by
  have hown := ipChecksum_echoReply packet hsize
  rw [← oddByte_eq_zero, ← ipChecksum_eq_rfc, hown]
  exact eq_comm

/-- A message whose checksum is right is rejected if its length is odd and its last byte is not
zero. -/
theorem toIcmpLayer_rejects (host : Host) (h : rfcChecksum (payload m) (payloadLen m) = 0)
    (hodd : oddByte (payload m) (payloadLen m) ≠ 0) : toIcmpLayer host m = .protocolError := by
  have hne : ipChecksum (payload m) (payloadLen m) ≠ 0 := by
    rw [← h]
    exact fun heq => hodd (ipChecksum_eq_rfc.mp heq)
  unfold toIcmpLayer
  exact if_pos hne

end

/-- The pseudo-header: both addresses, a zero, the protocol and the length in network order. -/
def pseudoHeader (proto len : Nat) (src dst : BitVec 32) : List Byte :=
  longBytes src ++ longBytes dst ++
    [0, BitVec.ofNat 8 proto, BitVec.ofNat 8 (len / 256), BitVec.ofNat 8 len]

/-- The words of the pseudo-header and of the padded segment. -/
def transportWords (proto : Nat) (m : Mem) (len : Nat) (src dst : BitVec 32) : List Nat :=
  words (ofBytes (pseudoHeader proto len src dst)) 12 ++ paddedWords m len

/-- What a checksum over a pseudo-header has to be, for the protocol that has its field at
`off`. -/
structure TransportChecks (checksum : Mem → Nat → BitVec 32 → BitVec 32 → Nat) (proto off : Nat)
    (m : Mem) (len : Nat) (src dst : BitVec 32) : Prop where
  /-- The 32-bit accumulator comes to the plain sum of the words. -/
  exact : len < 2 ^ 16 →
    wrap (accumulate (words m len) + oddByte m len + pseudoSum proto len src dst) =
      (transportWords proto m len src dst).sum
  value : checksum m len src dst = 65535 - onesSum (transportWords proto m len src dst)
  /-- Stored in its field, which was zero, it makes the checksum zero. -/
  field : off + 2 ≤ len → loadWord m off = 0 →
    checksum (store m off (wordBytes (checksum m len src dst))) len src dst = 0

variable {m : Mem} {proto off len n : Nat} {src dst : BitVec 32}

theorem sum_words_pseudoHeader (hproto : proto < 256) :
    (words (ofBytes (pseudoHeader proto len src dst)) 12).sum = pseudoSum proto len src dst := by
  have hsrc := src.isLt
  have hdst := dst.isLt
  have hwords : words (ofBytes (pseudoHeader proto len src dst)) 12 =
      [src.toNat % 65536, src.toNat / 65536, dst.toNat % 65536, dst.toNat / 65536,
        256 * proto, len / 256 % 256 + 256 * (len % 256)] := by
    simp [words, List.range_succ, loadWord, ofBytes, pseudoHeader, longBytes, wordBytes]
    omega
  rw [hwords]
  simp only [List.sum_cons, List.sum_nil, pseudoSum, ntohs]
  omega

theorem transportWords_lt : ∀ word ∈ transportWords proto m len src dst, word < 65536 := by
  intro word hword
  rcases List.mem_append.mp hword with hword | hword
  · exact words_lt word hword
  · exact paddedWords_lt word hword

theorem sum_transportWords (hproto : proto < 256) : (transportWords proto m len src dst).sum =
    (words m len).sum + oddByte m len + pseudoSum proto len src dst := by
  rw [transportWords, List.sum_append, sum_words_pseudoHeader hproto, sum_paddedWords,
    Nat.add_comm]

/-- A sum of words is bounded by their number. -/
theorem sum_words_le : (words m len).sum ≤ len / 2 * 65535 := by
  have hsum := List.sum_le_card_nsmul (words m len) 65535
    fun word hword => Nat.le_of_lt_succ (words_lt word hword)
  rw [words, List.length_map, List.length_range] at hsum
  exact hsum

theorem transportChecksum_exact (hproto : proto < 256) (hlen : len < 2 ^ 16) :
    wrap (accumulate (words m len) + oddByte m len + pseudoSum proto len src dst) =
      (transportWords proto m len src dst).sum := by
  have hsum : (words m len).sum ≤ len / 2 * 65535 := sum_words_le
  have hodd : oddByte m len < 256 := oddByte_lt
  have hpseudo : pseudoSum proto len src dst < 2 ^ 19 := pseudoSum_lt
  rw [accumulate_eq_sum (by omega), sum_transportWords hproto]
  apply wrap_of_lt
  omega

theorem transportChecksum_value (hproto : proto < 256) : transportChecksum proto m len src dst =
    65535 - onesSum (transportWords proto m len src dst) := by
  rw [onesSum_eq transportWords_lt, sum_transportWords hproto, transportChecksum_eq,
    Nat.add_assoc]

/-- The field is inside the words: the last byte is not touched. -/
theorem oddByte_store (hoff : off + 2 ≤ len) (heven : off % 2 = 0) :
    oddByte (store m off (wordBytes n)) len = oddByte m len := by
  unfold oddByte
  split
  · rw [store_wordBytes, if_neg (by omega), if_neg (by omega)]
  · rfl

theorem transportChecksum_store (heven : off % 2 = 0) (hoff : off + 2 ≤ len)
    (hzero : loadWord m off = 0) :
    transportChecksum proto (store m off (wordBytes (transportChecksum proto m len src dst))) len
      src dst = 0 := by
  have hchk : transportChecksum proto m len src dst =
      65535 - fold16 ((words m len).sum + (oddByte m len + pseudoSum proto len src dst)) :=
    transportChecksum_eq
  rw [transportChecksum_eq, sum_words_store heven hoff hzero (by omega), oddByte_store hoff heven,
    Nat.add_right_comm, hchk, fold16_add_complement]

/-- A protocol with its field at an even offset. -/
theorem transportChecks_of (hproto : proto < 256) (heven : off % 2 = 0) :
    TransportChecks (transportChecksum proto) proto off m len src dst where
  exact := transportChecksum_exact hproto
  value := transportChecksum_value hproto
  field := transportChecksum_store heven

/-- Both checksums are the one's complement sums that they have to be, and check. -/
theorem transport_checks (m : Mem) (len : Nat) (src dst : BitVec 32) :
    TransportChecks udpChecksum ipprotoUdp 6 m len src dst ∧
      TransportChecks tcpChecksum ipprotoTcp 16 m len src dst :=
  ⟨transportChecks_of (by decide) (by decide), transportChecks_of (by decide) (by decide)⟩

end OsdevArchive.Minirighi.Ip
