import OsdevArchive.Lib.Runs
import OsdevArchive.Minirighi.Ip

/-!
The table of open sockets (`network/socket.c`). `sock_queue` is the list of its sockets; each call
searches it for its descriptor under `sock_mutex`. Descriptors come from a counter, so they are
distinct until it comes around; `bind` does not report a descriptor that it does not find.
-/

namespace OsdevArchive.Minirighi.Socket

open OsdevArchive.Lib.Runs
open OsdevArchive.Minirighi.Ip (SockAddr afInet)

/-- `struct sock`. `state` is not used. -/
structure Sock where
  count : BitVec 32
  domain : Int
  type : Int
  protocol : Int
  port : BitVec 16
  ipaddr : BitVec 32
  deriving DecidableEq

/-- `sock_queue` and `sock_count`. -/
structure Sockets where
  queue : List Sock
  sockCount : BitVec 32
  deriving DecidableEq

def sockStream : Int := 1

def sockDgram : Int := 2

def sockRaw : Int := 3

def ebadf : Int := 9

def enomem : Int := 12

def einval : Int := 22

def enoprotoopt : Int := 92

/-- The checks of `sys_socket`. -/
def Valid (domain type : Int) : Prop :=
  domain = afInet ∧ (type = sockDgram ∨ type = sockStream ∨ type = sockRaw)

instance Valid.instDecidable (domain type : Int) : Decidable (Valid domain type) :=
  inferInstanceAs (Decidable (_ ∧ _))

/-- The assignments of `sys_bind` to the first socket with the descriptor. -/
def assign (sockfd : BitVec 32) (sin : SockAddr) : List Sock → List Sock
  | [] => []
  | sk :: queue =>
    if sk.count = sockfd then { sk with ipaddr := sin.addr, port := sin.port } :: queue
    else sk :: assign sockfd sin queue

namespace Sockets

variable (s : Sockets)

/-- The search for the socket structure. -/
def find (sockfd : BitVec 32) : Option Sock := s.queue.find? fun sk => sk.count = sockfd

/-- `sys_socket`; `mem` and `node` tell whether there is memory for the socket and for its entry
in the queue, whose failure is not noticed. -/
def sysSocket (domain type protocol : Int) (mem node : Bool) : Int × Sockets :=
  if ¬Valid domain type then (-einval, s)
  else if !mem then (-enomem, s)
  else
    let count := s.sockCount + 1
    let sk : Sock := ⟨count, domain, type, protocol, 0, 0⟩
    (count.toInt, { queue := if node then s.queue ++ [sk] else s.queue, sockCount := count })

/-- `sys_bind`. -/
def sysBind (sockfd : BitVec 32) (sin : SockAddr) : Int × Sockets :=
  match s.find sockfd with
  | none => (0, s)
  | some sk =>
    if (sin.family : Int) ≠ sk.domain then (-einval, s)
    else (0, { s with queue := assign sockfd sin s.queue })

/-- `sys_recvfrom`: what it returns and `*from`, unless that is null. `ip` and `udp` are
`ip_recvfrom` and `udp_recvfrom`, which get the address of the socket. -/
def sysRecvfrom (fd : BitVec 32) (sin : Option SockAddr)
    (ip udp : Sock → SockAddr → Int × SockAddr) : Int × Option SockAddr :=
  match sin with
  | none => (-enoprotoopt, none)
  | some sin =>
    match s.find fd with
    | none => (-ebadf, some sin)
    | some sk =>
      let sin : SockAddr := ⟨(sk.domain % 2 ^ 16).toNat, sk.port, sk.ipaddr⟩
      if sk.type = sockRaw then ((ip sk sin).1, some (ip sk sin).2)
      else if sk.type = sockDgram then ((udp sk sin).1, some (udp sk sin).2)
      else if sk.type = sockStream then (-enoprotoopt, some sin)
      else (-einval, some sin)

/-- `sys_sendto`; `ip` and `udp` are `ip_sendto` and `udp_sendto`. -/
def sysSendto (fd : BitVec 32) (dest : Option SockAddr) (ip udp : Sock → SockAddr → Int) : Int :=
  match dest with
  | none => -enoprotoopt
  | some sin =>
    match s.find fd with
    | none => -ebadf
    | some sk =>
      if (sin.family : Int) ≠ sk.domain then -einval
      else if sk.type = sockRaw then ip sk sin
      else if sk.type = sockDgram then udp sk sin
      else if sk.type = sockStream then -enoprotoopt
      else -einval

/-- `sys_closesocket`. -/
def sysClosesocket (sockfd : BitVec 32) : Int × Sockets :=
  match s.find sockfd with
  | none => (-ebadf, s)
  | some _ => (0, { s with queue := s.queue.eraseP fun sk => sk.count = sockfd })

end Sockets

/-! ### Calls -/

inductive Call where
  | socket (domain type protocol : Int) (mem node : Bool)
  | bind (sockfd : BitVec 32) (sin : SockAddr)
  | recvfrom (fd : BitVec 32) (sin : Option SockAddr)
      (ip udp : Sock → SockAddr → Int × SockAddr)
  | sendto (fd : BitVec 32) (dest : Option SockAddr) (ip udp : Sock → SockAddr → Int)
  | closesocket (sockfd : BitVec 32)
  /-- `sys_connect`, `sys_listen`, `sys_accept`, `sys_recv` and `sys_send`. -/
  | stream (sockfd : BitVec 32)

/-- The descriptor that a call is about. -/
def Call.descriptor : Call → Option (BitVec 32)
  | .socket .. => none
  | .bind sockfd _ | .closesocket sockfd | .stream sockfd => some sockfd
  | .recvfrom fd .. | .sendto fd .. => some fd

/-- What a call returns, and the table behind it. -/
def Sockets.call (s : Sockets) : Call → Int × Sockets
  | .socket domain type protocol mem node => s.sysSocket domain type protocol mem node
  | .bind sockfd sin => s.sysBind sockfd sin
  | .recvfrom fd sin ip udp => ((s.sysRecvfrom fd sin ip udp).1, s)
  | .sendto fd dest ip udp => (s.sysSendto fd dest ip udp, s)
  | .closesocket sockfd => s.sysClosesocket sockfd
  | .stream _ => (-enoprotoopt, s)

def step (s : Sockets) (c : Call) : Sockets := (s.call c).2

def boot : Sockets := ⟨[], 0⟩

/-- The descriptors of the open sockets. -/
def Sockets.descriptors (s : Sockets) : List (BitVec 32) := s.queue.map Sock.count

/-- A call keeps the descriptors distinct, and one on a descriptor that is not open returns an
error and changes nothing. -/
structure Orderly (s : Sockets) (c : Call) (t : Sockets) : Prop where
  distinct : t.descriptors.Nodup
  refused : ∀ fd, c.descriptor = some fd → fd ∉ s.descriptors → (s.call c).1 < 0 ∧ t = s

/-- The descriptor is open when `bind` gets it, and the next one is not open when a socket is
linked. -/
def Allowed (s : Sockets) : Call → Prop
  | .socket domain type _ mem node =>
    Valid domain type → mem = true → node = true → s.sockCount + 1 ∉ s.descriptors
  | .bind sockfd _ => sockfd ∈ s.descriptors
  | _ => True

/-! ### One call -/

theorem ebadf_neg : -ebadf < 0 := by decide

theorem enoprotoopt_neg : -enoprotoopt < 0 := by decide

variable {s : Sockets} {fd : BitVec 32} {sin : SockAddr} {queue : List Sock}

theorem find_eq_none : s.find fd = none ↔ fd ∉ s.descriptors := by
  rw [Sockets.find, List.find?_eq_none, Sockets.descriptors, List.mem_map]
  simp only [decide_eq_true_eq, not_exists, not_and]

theorem map_count_assign : (assign fd sin queue).map Sock.count = queue.map Sock.count := by
  induction queue with
  | nil => rfl
  | cons sk queue ih =>
    rw [assign]
    split
    · rfl
    · rw [List.map_cons, List.map_cons, ih]

/-- A socket that is linked has the next descriptor. -/
theorem sysSocket_descriptors (domain type protocol : Int) (mem node : Bool) :
    (s.sysSocket domain type protocol mem node).2.descriptors =
      if Valid domain type ∧ mem = true ∧ node = true then s.descriptors ++ [s.sockCount + 1]
      else s.descriptors := by
  unfold Sockets.sysSocket
  by_cases hvalid : Valid domain type
  · rw [if_neg (not_not.mpr hvalid)]
    cases mem with
    | false => simp
    | true => cases node <;> simp [hvalid, Sockets.descriptors]
  · rw [if_pos hvalid, if_neg fun h => hvalid h.1]

theorem sysBind_unknown (h : fd ∉ s.descriptors) : s.sysBind fd sin = (0, s) := by
  rw [Sockets.sysBind, find_eq_none.mpr h]

theorem sysBind_descriptors : (s.sysBind fd sin).2.descriptors = s.descriptors := by
  unfold Sockets.sysBind
  split
  · rfl
  · split
    · rfl
    · exact map_count_assign

theorem sysClosesocket_unknown (h : fd ∉ s.descriptors) :
    s.sysClosesocket fd = (-ebadf, s) := by
  rw [Sockets.sysClosesocket, find_eq_none.mpr h]

theorem sysClosesocket_sublist : (s.sysClosesocket fd).2.descriptors.Sublist s.descriptors := by
  unfold Sockets.sysClosesocket
  split
  · exact List.Sublist.refl _
  · exact List.eraseP_sublist.map _

theorem sysRecvfrom_unknown (h : fd ∉ s.descriptors) (from_ : Option SockAddr)
    (ip udp : Sock → SockAddr → Int × SockAddr) : (s.sysRecvfrom fd from_ ip udp).1 < 0 := by
  cases from_ with
  | none => exact enoprotoopt_neg
  | some sin =>
    rw [Sockets.sysRecvfrom, find_eq_none.mpr h]
    exact ebadf_neg

theorem sysSendto_unknown (h : fd ∉ s.descriptors) (dest : Option SockAddr)
    (ip udp : Sock → SockAddr → Int) : s.sysSendto fd dest ip udp < 0 := by
  cases dest with
  | none => exact enoprotoopt_neg
  | some sin =>
    rw [Sockets.sysSendto, find_eq_none.mpr h]
    exact ebadf_neg

/-- A socket is created in order unless its descriptor is taken. -/
theorem socket_orderly_iff {domain type protocol : Int} {mem node : Bool}
    (hs : s.descriptors.Nodup) : Orderly s (.socket domain type protocol mem node)
      (step s (.socket domain type protocol mem node)) ↔
        Allowed s (.socket domain type protocol mem node) := by
  have hlinked := sysSocket_descriptors (s := s) domain type protocol mem node
  constructor
  · intro h hvalid hmem hnode
    have hdistinct : (s.sysSocket domain type protocol mem node).2.descriptors.Nodup := h.distinct
    rw [hlinked, if_pos ⟨hvalid, hmem, hnode⟩] at hdistinct
    intro hnext
    exact List.disjoint_of_nodup_append hdistinct hnext (List.mem_singleton_self _)
  · intro h
    constructor
    · change (s.sysSocket domain type protocol mem node).2.descriptors.Nodup
      rw [hlinked]
      split
      · rename_i hall
        rw [← List.concat_eq_append]
        exact hs.concat (h hall.1 hall.2.1 hall.2.2)
      · exact hs
    · intro fd hfd
      cases hfd

/-- `bind` is in order on a descriptor that is open. -/
theorem bind_orderly_iff (hs : s.descriptors.Nodup) :
    Orderly s (.bind fd sin) (step s (.bind fd sin)) ↔ fd ∈ s.descriptors := by
  constructor
  · intro h
    by_contra hfd
    have hrefused := (h.refused fd rfl hfd).1
    change (s.sysBind fd sin).1 < 0 at hrefused
    rw [sysBind_unknown hfd] at hrefused
    exact lt_irrefl 0 hrefused
  · intro hopen
    constructor
    · change (s.sysBind fd sin).2.descriptors.Nodup
      rwa [sysBind_descriptors]
    · intro fd' hfd hclosed
      obtain rfl := Option.some.inj hfd
      exact absurd hopen hclosed

/-- A call is orderly exactly if it is allowed. -/
theorem orderly_iff {c : Call} (hs : s.descriptors.Nodup) :
    Orderly s c (step s c) ↔ Allowed s c := by
  cases c with
  | socket domain type protocol mem node => exact socket_orderly_iff hs
  | bind sockfd sin => exact bind_orderly_iff hs
  | recvfrom fd from_ ip udp =>
    refine iff_of_true ⟨hs, ?_⟩ trivial
    intro fd' hfd hclosed
    obtain rfl := Option.some.inj hfd
    exact ⟨sysRecvfrom_unknown hclosed from_ ip udp, rfl⟩
  | sendto fd dest ip udp =>
    refine iff_of_true ⟨hs, ?_⟩ trivial
    intro fd' hfd hclosed
    obtain rfl := Option.some.inj hfd
    exact ⟨sysSendto_unknown hclosed dest ip udp, rfl⟩
  | closesocket sockfd =>
    refine iff_of_true ⟨hs.sublist sysClosesocket_sublist, ?_⟩ trivial
    intro fd hfd hclosed
    obtain rfl := Option.some.inj hfd
    have hclose := sysClosesocket_unknown hclosed
    constructor
    · change (s.sysClosesocket sockfd).1 < 0
      rw [hclose]
      exact ebadf_neg
    · change (s.sysClosesocket sockfd).2 = s
      rw [hclose]
  | stream sockfd =>
    refine iff_of_true ⟨hs, ?_⟩ trivial
    intro fd hfd hclosed
    exact ⟨enoprotoopt_neg, rfl⟩

/-! ### Runs of calls -/

/-- A run is orderly throughout exactly if all its calls are allowed. -/
theorem sockets_orderly_iff (cs : List Call) (t : Sockets) :
    Run (fun s c t => Updates step s c t ∧ Orderly s c t) boot cs t ↔
      Run (Guarded Allowed (Updates step)) boot cs t := by
  apply Run.meets_iff_guarded (I := fun s => s.descriptors.Nodup)
  · intro s c t hs hstep
    obtain rfl : step s c = t := hstep
    exact orderly_iff hs
  · intro s c t _ _ h
    exact h.distinct
  · exact List.nodup_nil

/-- A name is bound to a descriptor that no socket has. -/
theorem bind_unnoticed : ¬∀ cs t, Run (Updates step) boot cs t →
    Run (fun s c t => Updates step s c t ∧ Orderly s c t) boot cs t := by
  intro hall
  have hrun : Run (Updates step) boot [.bind 5 ⟨2, 0, 0⟩] boot := Run.single rfl
  rcases hall _ _ hrun with _ | ⟨⟨-, horderly⟩, -⟩
  have hrefused := (horderly.refused 5 rfl List.not_mem_nil).1
  exact absurd hrefused (by decide)

end OsdevArchive.Minirighi.Socket
