import OsdevArchive.Minirighi.Inet

/-!
The TCP layer (`network/tcp.c`). There is one connection record, `tcp_conn`, and
`to_tcp_layer` processes a segment under `tcp_mutex`. It writes its answer over the
segment, so the packet that the IP layer stores afterwards is the one that is left
here. Nothing compares a segment's addresses and ports with those of the record.
-/

namespace OsdevArchive.Minirighi.Tcp

open OsdevArchive.Minirighi.Inet

/-- `TCP_CLOSED` and the other states. -/
inductive ConnState where
  | closed
  | synRcvd
  | synSent
  | established
  | closing
  deriving DecidableEq

/-- `socket_t`, in network format. -/
structure Socket where
  ipSrc : BitVec 32
  portSrc : Nat
  ipDst : BitVec 32
  portDst : Nat
  deriving DecidableEq

/-- `tcp_state_t`. -/
structure TcpState where
  state : ConnState
  socket : Socket
  seqNum : BitVec 32
  deriving DecidableEq

/-- `sizeof(tcp_t)`. -/
def tcpHeadLen : Nat := 20

/-! The fields of a segment. -/

def tcpSrc (m : Mem) : Nat := loadWord m 0

def tcpDst (m : Mem) : Nat := loadWord m 2

def tcpSeqNum (m : Mem) : BitVec 32 := loadLong m 4

def tcpAckNum (m : Mem) : BitVec 32 := loadLong m 8

def tcpHdrLen (m : Mem) : Nat := (m 12).toNat / 16

def tcpFin (m : Mem) : Bool := (m 13).getLsbD 0

def tcpSyn (m : Mem) : Bool := (m 13).getLsbD 1

def tcpRst (m : Mem) : Bool := (m 13).getLsbD 2

def tcpAck (m : Mem) : Bool := (m 13).getLsbD 4

/-- `len - packet->tcp_hdr_len * 4`, on 32-bit words. -/
def dataLen (m : Mem) (len : BitVec 32) : BitVec 32 := len - BitVec.ofNat 32 (tcpHdrLen m * 4)

/-! The assignments by which an answer is made of a segment. -/

def setSrc (m : Mem) (port : Nat) : Mem := store m 0 (wordBytes port)

def setDst (m : Mem) (port : Nat) : Mem := store m 2 (wordBytes port)

def setSeqNum (m : Mem) (n : BitVec 32) : Mem := store m 4 (longBytes n)

def setAckNum (m : Mem) (n : BitVec 32) : Mem := store m 8 (longBytes n)

/-- `packet->tcp_hdr_len = 5`. -/
def setHdrLen (m : Mem) : Mem := store m 12 [m 12 &&& 0x0F ||| 0x50]

/-- `packet->tcp_ack = 1`. -/
def setAck (m : Mem) : Mem := store m 13 [m 13 ||| 0x10]

/-- `packet->tcp_rst = 1`. -/
def setRst (m : Mem) : Mem := store m 13 [m 13 ||| 0x04]

/-- `packet->tcp_syn = 0`. -/
def clearSyn (m : Mem) : Mem := store m 13 [m 13 &&& 0xFD]

/-- The three assignments with `^=` that exchange the ports. -/
def swapPorts (m : Mem) : Mem :=
  let m := setDst m (tcpDst m ^^^ tcpSrc m)
  let m := setSrc m (tcpSrc m ^^^ tcpDst m)
  setDst m (tcpDst m ^^^ tcpSrc m)

/-- `packet->tcp_chk`, of the packet with a zero there. -/
def setChk (m : Mem) (len : BitVec 32) (src dst : BitVec 32) : Mem :=
  let m := store m 16 (wordBytes 0)
  store m 16 (wordBytes (tcpChecksum m len.toNat src dst))

/-- What one call leaves behind: `tcp_conn`, the packet, and how many bytes of it
were sent back to the sender. -/
structure Done where
  conn : Option TcpState
  packet : Mem
  sent : Option (BitVec 32)

inductive Outcome where
  /-- `-EPROTO`. -/
  | protocolError
  /-- `tcp_conn` is dereferenced while it is null. -/
  | nullPointer
  | done (result : Done)

section Segment

variable (m : Mem) (len ipSrc ipDst : BitVec 32)

/-- The answer to a SYN while there is a connection. -/
def refuse (c : TcpState) : Done :=
  let p := setAckNum m (ntohl (ntohl (tcpSeqNum m) + dataLen m len + 1))
  let p := clearSyn (setRst (setAck (setHdrLen (setSeqNum p c.seqNum))))
  ⟨some c, setChk p 20 ipDst ipSrc, some 20⟩

/-- A SYN opens the connection. `mem` tells whether `kmalloc` succeeds, whose result
is not checked; `ticks` is `sys_times(NULL)`. -/
def openConn (mem : Bool) (ticks : BitVec 32) : Outcome :=
  if mem then
    let socket : Socket := ⟨ipSrc, tcpSrc m, ipDst, tcpDst m⟩
    let p := setAckNum (swapPorts m) (ntohl (ntohl (tcpSeqNum m) + 1))
    let p := setAck (setSeqNum p (ntohl ticks))
    .done ⟨some ⟨.synRcvd, socket, ntohl (ntohl (ntohl ticks) + 1)⟩,
      setChk p len ipDst ipSrc, some len⟩
  else .nullPointer

/-- A FIN on an established connection closes it. -/
def closeConn (c : TcpState) : Done :=
  let p := setAckNum (swapPorts m) (ntohl (ntohl (tcpSeqNum m) + dataLen m len + 1))
  let p := setAck (setHdrLen (setSeqNum p c.seqNum))
  ⟨some { c with state := .closing }, setChk p 20 ipDst ipSrc, some 20⟩

/-- Everything else on an established connection is sent back. -/
def echo (c : TcpState) : Done :=
  let p := setAckNum (swapPorts m) (ntohl (ntohl (tcpSeqNum m) + dataLen m len))
  let p := setAck (setSeqNum p c.seqNum)
  ⟨some { c with seqNum := ntohl (ntohl c.seqNum + dataLen m len) },
    setChk p len ipDst ipSrc, some len⟩

/-- The branches of `to_tcp_layer` while there is a connection. -/
def connected (c : TcpState) : Done :=
  if tcpSyn m then refuse m len ipSrc ipDst c
  else if tcpRst m then ⟨none, m, none⟩
  else if tcpFin m then
    if c.state = .established then closeConn m len ipSrc ipDst c else ⟨some c, m, none⟩
  else if tcpAck m ∧ c.state = .synRcvd then ⟨some { c with state := .established }, m, none⟩
  else match c.state with
    | .established =>
        if tcpAck m ∧ dataLen m len = 0#32 then ⟨some c, m, none⟩ else echo m len ipSrc ipDst c
    | .closing => ⟨none, m, none⟩
    | .closed | .synRcvd | .synSent => ⟨some c, m, none⟩

/-- `to_tcp_layer`. Without a connection, an ACK reaches the comparison of
`tcp_conn->state`. -/
def toTcpLayer (conn : Option TcpState) (mem : Bool) (ticks : BitVec 32) : Outcome :=
  if tcpChecksum m len.toNat ipSrc ipDst ≠ 0 then .protocolError
  else match conn with
    | some c => .done (connected m len ipSrc ipDst c)
    | none =>
        if tcpSyn m ∧ ¬tcpAck m then openConn m len ipSrc ipDst mem ticks
        else if tcpAck m then .nullPointer
        else .done ⟨none, m, none⟩

/-- A segment of the connection: the 4-tuple is the recorded one. -/
def Matches (socket : Socket) : Prop :=
  socket = ⟨ipSrc, tcpSrc m, ipDst, tcpDst m⟩

instance (socket : Socket) : Decidable (Matches m ipSrc ipDst socket) :=
  inferInstanceAs (Decidable (_ = _))

/-- `tcp_conn` after a call. -/
def Outcome.conn (before : Option TcpState) : Outcome → Option TcpState
  | .done result => result.conn
  | .protocolError | .nullPointer => before

/-- Whether a packet was sent back. -/
def Outcome.Answered : Outcome → Prop
  | .done result => result.sent ≠ none
  | .protocolError | .nullPointer => False

/-- What isolation asks of one call: the record is dereferenced only if it exists,
and only a segment of the connection changes it. -/
def Isolated (conn : Option TcpState) (mem : Bool) (ticks : BitVec 32) : Prop :=
  toTcpLayer m len ipSrc ipDst conn mem ticks ≠ .nullPointer ∧
    ∀ c, conn = some c → ¬Matches m ipSrc ipDst c.socket →
      (toTcpLayer m len ipSrc ipDst conn mem ticks).conn conn = some c

/-- The segments on which a state has nothing to do. A SYN is refused in every
state. -/
def Idle (state : ConnState) : Prop :=
  tcpSyn m ∨ ¬tcpRst m ∧
    match state with
    | .closed | .synSent => True
    | .synRcvd => tcpFin m ∨ ¬tcpAck m
    | .established => ¬tcpFin m ∧ dataLen m len = 0#32
    | .closing => tcpFin m

instance : ∀ state, Decidable (Idle m len state)
  | .closed | .synSent => inferInstanceAs (Decidable (_ ∨ _ ∧ True))
  | .synRcvd => inferInstanceAs (Decidable (_ ∨ _ ∧ (_ ∨ _)))
  | .established => inferInstanceAs (Decidable (_ ∨ _ ∧ _ ∧ _))
  | .closing => inferInstanceAs (Decidable (_ ∨ _ ∧ _ = _))

/-- When a call is isolated: the segment is rejected, or it belongs to the connection
or has nothing to do in its state; without a connection it has no ACK, and if it is a
SYN there is memory for the record. -/
def Harmless (mem : Bool) : Option TcpState → Prop
  | some c => tcpChecksum m len.toNat ipSrc ipDst ≠ 0 ∨
      Matches m ipSrc ipDst c.socket ∨ Idle m len c.state
  | none => tcpChecksum m len.toNat ipSrc ipDst ≠ 0 ∨ ¬tcpAck m ∧ (tcpSyn m → mem)

variable {m len ipSrc ipDst}
variable {c : TcpState} {mem : Bool} {ticks : BitVec 32}

/-- The sequence number stays only if the segment has no data. -/
theorem echo_conn_iff : (echo m len ipSrc ipDst c).conn = some c ↔ dataLen m len = 0#32 := by
  constructor
  · intro h
    have hseq : ntohl (ntohl c.seqNum + dataLen m len) = c.seqNum :=
      congrArg TcpState.seqNum (Option.some.inj h)
    have hadd : ntohl c.seqNum + dataLen m len = ntohl c.seqNum := by
      rw [← ntohl_ntohl (ntohl c.seqNum + dataLen m len), hseq]
    exact BitVec.add_left_eq_self.mp ((BitVec.add_comm _ _).trans hadd)
  · intro h
    have hseq : ntohl (ntohl c.seqNum + dataLen m len) = c.seqNum := by
      rw [h, BitVec.add_zero, ntohl_ntohl]
    simp only [echo, hseq]

theorem closeConn_conn_ne (h : c.state = .established) :
    (closeConn m len ipSrc ipDst c).conn ≠ some c := by
  intro hsame
  have hstate := congrArg TcpState.state (Option.some.inj hsame)
  rw [h] at hstate
  exact ConnState.noConfusion hstate

theorem connected_fin (hsyn : tcpSyn m = false) (hrst : tcpRst m = false) (hfin : tcpFin m = true) :
    (connected m len ipSrc ipDst c).conn = some c ↔ Idle m len c.state := by
  simp only [connected, Idle, hsyn, hrst, hfin]
  cases hstate : c.state with
  | established => simpa using closeConn_conn_ne hstate
  | closed | synRcvd | synSent | closing => simp

theorem connected_plain (hsyn : tcpSyn m = false) (hrst : tcpRst m = false)
    (hfin : tcpFin m = false) :
    (connected m len ipSrc ipDst c).conn = some c ↔ Idle m len c.state := by
  simp only [connected, Idle, hsyn, hrst, hfin]
  cases hstate : c.state with
  | closed | synSent => simp
  | synRcvd =>
      cases hack : tcpAck m with
      | false => simp
      | true =>
          have hne : { c with state := .established } ≠ c := by
            intro hsame
            have hest := congrArg TcpState.state hsame
            rw [hstate] at hest
            exact ConnState.noConfusion hest
          simpa using hne
  | established =>
      by_cases hempty : tcpAck m ∧ dataLen m len = 0#32
      · simp [hempty]
      · simp [hempty, echo_conn_iff]
  | closing => simp

/-- A call leaves an existing connection as it is exactly on the segments on which
its state has nothing to do. -/
theorem connected_conn_iff :
    (connected m len ipSrc ipDst c).conn = some c ↔ Idle m len c.state := by
  cases hsyn : tcpSyn m with
  | true => simp [connected, refuse, Idle, hsyn]
  | false =>
      cases hrst : tcpRst m with
      | true => simp [connected, Idle, hsyn, hrst]
      | false =>
          cases hfin : tcpFin m with
          | true => exact connected_fin hsyn hrst hfin
          | false => exact connected_plain hsyn hrst hfin

/-- A checked segment dereferences a missing record if it has an ACK, or is a SYN for
which there is no memory. -/
theorem toTcpLayer_nullPointer_iff (hchk : tcpChecksum m len.toNat ipSrc ipDst = 0) :
    toTcpLayer m len ipSrc ipDst none mem ticks = .nullPointer ↔
      tcpAck m ∨ tcpSyn m ∧ ¬mem := by
  unfold toTcpLayer openConn
  rw [if_neg (not_not_intro hchk)]
  cases tcpSyn m <;> cases tcpAck m <;> cases mem <;> simp

/-- Only an answer is written over a segment; it is as long as the segment, or only a
header. -/
def Done.AnswerOf (m : Mem) (len : BitVec 32) (result : Done) : Prop :=
  (result.sent = none ∧ result.packet = m) ∨ result.sent = some len ∨ result.sent = some 20

theorem connected_answer : (connected m len ipSrc ipDst c).AnswerOf m len := by
  unfold connected
  split
  · exact .inr (.inr rfl)
  split
  · exact .inl ⟨rfl, rfl⟩
  split
  · split
    · exact .inr (.inr rfl)
    · exact .inl ⟨rfl, rfl⟩
  split
  · exact .inl ⟨rfl, rfl⟩
  split
  · split
    · exact .inl ⟨rfl, rfl⟩
    · exact .inr (.inl rfl)
  all_goals exact .inl ⟨rfl, rfl⟩

theorem toTcpLayer_answer {conn : Option TcpState} {result : Done}
    (h : toTcpLayer m len ipSrc ipDst conn mem ticks = .done result) : result.AnswerOf m len := by
  unfold toTcpLayer at h
  split at h
  · cases h
  cases conn with
  | some c =>
      obtain rfl := Outcome.done.inj h
      exact connected_answer
  | none =>
      simp only at h
      split at h
      · unfold openConn at h
        split at h
        · obtain rfl := Outcome.done.inj h
          exact .inr (.inl rfl)
        · cases h
      split at h
      · cases h
      · obtain rfl := Outcome.done.inj h
        exact .inl ⟨rfl, rfl⟩

/-- Which segments are processed to the end. -/
theorem toTcpLayer_done_iff {conn : Option TcpState} :
    (∃ result, toTcpLayer m len ipSrc ipDst conn mem ticks = .done result) ↔
      tcpChecksum m len.toNat ipSrc ipDst = 0 ∧ (conn = none → ¬tcpAck m ∧ (tcpSyn m → mem)) := by
  unfold toTcpLayer openConn
  by_cases hchk : tcpChecksum m len.toNat ipSrc ipDst = 0
  · cases conn with
    | some c => simp [hchk]
    | none => cases tcpAck m <;> cases tcpSyn m <;> cases mem <;> simp [hchk]
  · simp [hchk]

/-- A checked segment that arrives while there is a connection. -/
theorem isolated_some_iff (hchk : tcpChecksum m len.toNat ipSrc ipDst = 0) :
    Isolated m len ipSrc ipDst (some c) mem ticks ↔
      Matches m ipSrc ipDst c.socket ∨ Idle m len c.state := by
  have hrun : toTcpLayer m len ipSrc ipDst (some c) mem ticks =
      .done (connected m len ipSrc ipDst c) := by
    rw [toTcpLayer, if_neg (not_not_intro hchk)]
  unfold Isolated
  rw [hrun]
  constructor
  · rintro ⟨-, hkeeps⟩
    by_cases hmatch : Matches m ipSrc ipDst c.socket
    · exact .inl hmatch
    · exact .inr (connected_conn_iff.mp (hkeeps c rfl hmatch))
  · intro h
    refine ⟨Outcome.noConfusion, ?_⟩
    rintro c' ⟨⟩ hnot
    exact connected_conn_iff.mpr (h.resolve_left hnot)

/-- Exactly when a call is isolated. -/
theorem isolated_iff (m : Mem) (len ipSrc ipDst : BitVec 32) (conn : Option TcpState) (mem : Bool)
    (ticks : BitVec 32) :
    Isolated m len ipSrc ipDst conn mem ticks ↔ Harmless m len ipSrc ipDst mem conn := by
  by_cases hchk : tcpChecksum m len.toNat ipSrc ipDst = 0
  · cases conn with
    | none =>
        have hnull : toTcpLayer m len ipSrc ipDst none mem ticks = .nullPointer ↔
            tcpAck m ∨ tcpSyn m ∧ ¬mem := toTcpLayer_nullPointer_iff hchk
        simp only [Isolated, Harmless, ne_eq, hnull, hchk]
        cases tcpAck m <;> cases tcpSyn m <;> cases mem <;> simp
    | some c =>
        rw [isolated_some_iff hchk, Harmless, or_iff_right (not_not_intro hchk)]
  · have hrun : toTcpLayer m len ipSrc ipDst conn mem ticks = .protocolError := if_pos hchk
    have hisolated : Isolated m len ipSrc ipDst conn mem ticks := by
      unfold Isolated
      rw [hrun]
      exact ⟨Outcome.noConfusion, fun c hconn _ => hconn⟩
    cases conn with
    | none => exact iff_of_true hisolated (.inl hchk)
    | some c => exact iff_of_true hisolated (.inl hchk)

end Segment

/-- A segment with only the RST flag, from port 12345 to port 80. -/
def strayReset : Mem := ofBytes
  [0x30, 0x39, 0, 80, 0, 0, 0, 0, 0, 0, 0, 0, 0x50, 0x04, 0, 0, 0x6B, 0x50, 0, 0]

/-- The reset comes from 10.0.0.7 and closes the connection with 10.0.0.2. -/
theorem strayReset_not_isolated :
    ¬Isolated strayReset 20 0x0700000A 0x0100000A
      (some ⟨.established, ⟨0x0200000A, loadWord strayReset 0, 0x0100000A,
        loadWord strayReset 2⟩, 0⟩) true 0 :=
  (isolated_some_iff (by decide)).not.mpr (by decide)

end OsdevArchive.Minirighi.Tcp
