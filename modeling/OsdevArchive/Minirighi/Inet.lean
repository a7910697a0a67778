import OsdevArchive.Lib.OnesComplement
import OsdevArchive.Minirighi.Machine

/-!
Bytes, words and byte order, as the network code sees them (`net/network.h`), and
the checksums of its packets. The processor is little endian: a word that is
loaded from a packet has its first byte in the low half, and `ntohs` exchanges the
halves. A packet is the memory from its first byte on; what lies behind its end is
memory like any other.
-/

namespace OsdevArchive.Minirighi.Inet

open OsdevArchive.Lib.OnesComplement

abbrev Byte := BitVec 8

/-- Memory, from a pointer on. -/
abbrev Mem := Nat → Byte

/-- Memory that starts with these bytes. -/
def ofBytes (bytes : List Byte) : Mem := fun i => bytes.getD i 0

/-- `p + off`. -/
def shift (m : Mem) (off : Nat) : Mem := fun i => m (off + i)

/-- The bytes that `memcpy` copies. -/
def bytesAt (m : Mem) (off len : Nat) : List Byte := (List.range len).map fun i => m (off + i)

/-- Overwrite the memory at an offset. -/
def store (m : Mem) (off : Nat) (bytes : List Byte) : Mem :=
  fun i => if off ≤ i then (bytes[i - off]?).getD (m i) else m i

/-- `*(uint16_t *)(p + off)`. -/
def loadWord (m : Mem) (off : Nat) : Nat := (m off).toNat + 256 * (m (off + 1)).toNat

/-- `*(uint32_t *)(p + off)`. -/
def loadLong (m : Mem) (off : Nat) : BitVec 32 :=
  BitVec.ofNat 32 (loadWord m off + 65536 * loadWord m (off + 2))

/-- The two bytes of a `uint16_t` in memory. -/
def wordBytes (n : Nat) : List Byte := [BitVec.ofNat 8 n, BitVec.ofNat 8 (n / 256)]

/-- The four bytes of a `uint32_t` in memory. -/
def longBytes (n : BitVec 32) : List Byte :=
  wordBytes (n.toNat % 65536) ++ wordBytes (n.toNat / 65536)

/-- `ntohs`, and also `htons`. -/
def ntohs (n : Nat) : Nat := n / 256 % 256 + n % 256 * 256

/-- `ntohl`, and also `htonl`. -/
def ntohl (n : BitVec 32) : BitVec 32 :=
  (n &&& 0xFF000000) >>> 24 ||| (n &&& 0x00FF0000) >>> 8 |||
    (n &&& 0x0000FF00) <<< 8 ||| (n &&& 0x000000FF) <<< 24

/-- The 16-bit words of a buffer. -/
def words (m : Mem) (len : Nat) : List Nat :=
  (List.range (len / 2)).map fun i => loadWord m (2 * i)

/-- `ip_checksum`. It leaves out an odd last byte. -/
def ipChecksum (m : Mem) (hdrLen : Nat) : Nat := 65535 - carries 3 (accumulate (words m hdrLen))

/-- The last byte of a buffer of odd length. -/
def oddByte (m : Mem) (len : Nat) : Nat := if len % 2 = 1 then (m (len - 1)).toNat else 0

/-- The pseudo-header: both addresses, the protocol and the length. -/
def pseudoSum (proto len : Nat) (src dst : BitVec 32) : Nat :=
  src.toNat % 65536 + src.toNat / 65536 + (dst.toNat % 65536 + dst.toNat / 65536) +
    ntohs proto + ntohs len

/-- The checksum of a transport protocol, over its packet and the pseudo-header. -/
def transportChecksum (proto : Nat) (m : Mem) (len : Nat) (src dst : BitVec 32) : Nat :=
  65535 - carries 3 (wrap (accumulate (words m len) + oddByte m len + pseudoSum proto len src dst))

def ipprotoIcmp : Nat := 1

def ipprotoIgmp : Nat := 2

def ipprotoTcp : Nat := 6

def ipprotoUdp : Nat := 17

/-- `tcp_checksum`. -/
def tcpChecksum : Mem → Nat → BitVec 32 → BitVec 32 → Nat := transportChecksum ipprotoTcp

/-- `udp_checksum`. -/
def udpChecksum : Mem → Nat → BitVec 32 → BitVec 32 → Nat := transportChecksum ipprotoUdp

variable {n : Nat} {m : Mem} {off len proto : Nat} {src dst : BitVec 32}

theorem loadWord_lt : loadWord m off < 2 ^ 16 := by
  have hlow := (m off).isLt
  have hhigh := (m (off + 1)).isLt
  unfold loadWord
  omega

theorem store_wordBytes (i : Nat) : store m off (wordBytes n) i =
    if i = off then BitVec.ofNat 8 n
    else if i = off + 1 then BitVec.ofNat 8 (n / 256)
    else m i := by
  unfold store wordBytes
  split_ifs with hle hlow hhigh hlow hhigh
  · simp [hlow]
  · simp [hhigh]
  · have hlen : 2 ≤ i - off := by omega
    rw [List.getElem?_eq_none (by simpa using hlen), Option.getD_none]
  · omega
  · omega
  · rfl

theorem loadWord_store (h : n < 2 ^ 16) : loadWord (store m off (wordBytes n)) off = n := by
  rw [loadWord, store_wordBytes, store_wordBytes, if_pos rfl, if_neg (by omega), if_pos rfl,
    BitVec.toNat_ofNat, BitVec.toNat_ofNat]
  omega

theorem loadWord_of (hlow : m off = BitVec.ofNat 8 n)
    (hhigh : m (off + 1) = BitVec.ofNat 8 (n / 256)) : loadWord m off = n % 2 ^ 16 := by
  rw [loadWord, hlow, hhigh, BitVec.toNat_ofNat, BitVec.toNat_ofNat]
  omega

theorem loadLong_of {k : BitVec 32} (hlow : loadWord m off = k.toNat % 65536)
    (hhigh : loadWord m (off + 2) = k.toNat / 65536) : loadLong m off = k := by
  have hlt := k.isLt
  rw [loadLong, hlow, hhigh]
  apply BitVec.eq_of_toNat_eq
  rw [BitVec.toNat_ofNat]
  omega

theorem store_store (k : Nat) :
    store (store m off (wordBytes k)) off (wordBytes n) = store m off (wordBytes n) := by
  funext i
  simp only [store_wordBytes]
  split_ifs <;> rfl

theorem store_loadWord : store m off (wordBytes (loadWord m off)) = m := by
  funext i
  have hlow := (m off).isLt
  have hdiv : loadWord m off / 256 = (m (off + 1)).toNat := by
    unfold loadWord
    omega
  rw [store_wordBytes, hdiv]
  split_ifs with hfirst hsecond
  · rw [hfirst, loadWord]
    apply BitVec.eq_of_toNat_eq
    rw [BitVec.toNat_ofNat]
    omega
  · rw [hsecond, BitVec.ofNat_toNat, BitVec.setWidth_eq]
  · rfl

theorem ntohs_lt : ntohs n < 2 ^ 16 := by
  unfold ntohs
  omega

theorem ntohs_div_mod (h : n < 2 ^ 16) : ntohs n / 256 = n % 256 ∧ ntohs n % 256 = n / 256 := by
  have heq : ntohs n = n / 256 + n % 256 * 256 := by
    unfold ntohs
    omega
  omega

theorem ntohs_ntohs (h : n < 2 ^ 16) : ntohs (ntohs n) = n := by
  obtain ⟨hhigh, hlow⟩ := ntohs_div_mod h
  have hlt : ntohs n < 2 ^ 16 := ntohs_lt
  rw [ntohs, hlow, Nat.mod_eq_of_lt (by omega), hhigh]
  omega

theorem ntohl_ntohl (n : BitVec 32) : ntohl (ntohl n) = n := by
  unfold ntohl
  ext i hi
  interval_cases i <;> simp

theorem words_lt : ∀ word ∈ words m len, word < 65536 := by
  intro word hword
  obtain ⟨i, -, rfl⟩ := List.mem_map.mp hword
  exact loadWord_lt

theorem ipChecksum_eq : ipChecksum m len = 65535 - fold16 (words m len).sum := by
  have hlt : accumulate (words m len) < 2 ^ 31 := accumulate_lt words_lt
  have hfold : fold16 (accumulate (words m len) + 0) = fold16 ((words m len).sum + 0) :=
    fold16_accumulate_add words_lt 0
  rw [ipChecksum, carries_eq (by omega)]
  exact congrArg (65535 - ·) hfold

theorem oddByte_lt : oddByte m len < 256 := by
  have hbyte := (m (len - 1)).isLt
  unfold oddByte
  split <;> omega

theorem pseudoSum_lt : pseudoSum proto len src dst < 2 ^ 19 := by
  have hsrc := src.isLt
  have hdst := dst.isLt
  have hproto : ntohs proto < 2 ^ 16 := ntohs_lt
  have hlen : ntohs len < 2 ^ 16 := ntohs_lt
  unfold pseudoSum
  omega

theorem transportChecksum_eq : transportChecksum proto m len src dst =
    65535 - fold16 ((words m len).sum + (oddByte m len + pseudoSum proto len src dst)) := by
  have hlt : accumulate (words m len) < 2 ^ 31 := accumulate_lt words_lt
  have hodd : oddByte m len < 256 := oddByte_lt
  have hpseudo : pseudoSum proto len src dst < 2 ^ 19 := pseudoSum_lt
  rw [transportChecksum, wrap_of_lt (by omega), carries_eq (by omega), Nat.add_assoc,
    fold16_accumulate_add words_lt]

end OsdevArchive.Minirighi.Inet
