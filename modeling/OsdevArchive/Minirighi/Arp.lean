import Mathlib.Data.Fintype.Basic
import Mathlib.Order.BoundedOrder.Basic
import OsdevArchive.Lib.Runs

/-!
The ARP cache (`network/arp.c`): the table `arp_table`, the two operations on it
and the search of `arp_ip_to_eth`. Each of them holds `arp_mutex` from its first
to its last access, so each is one step. The tick counter runs on while an entry
is added: every call of `sys_get_ticks` has its own result, and nothing is
assumed about these.
-/

namespace OsdevArchive.Minirighi.Arp

open OsdevArchive.Lib.Runs

/-- `ARP_TABLE_DIM`. -/
abbrev arpTableDim : Nat := 10

/-- An ethernet address. -/
abbrev Mac := Fin 6 → BitVec 8

/-- An entry of `arp_table`. An entry is empty when `ip` is zero. -/
structure Entry where
  ip : BitVec 32
  mac : Mac
  tickstamp : BitVec 32
  deriving DecidableEq

abbrev Table := Fin arpTableDim → Entry

/-- `arp_init` zeroes the table. -/
def arpInit : Table := fun _ => ⟨0, fun _ => 0, 0⟩

/-- The loop that looks for an address, from the first entry on. -/
def search (table : Table) (ip : BitVec 32) : Option (Fin arpTableDim) :=
  (List.finRange arpTableDim).find? fun i => (table i).ip = ip

/-- The age of an entry at a tick: the difference of two 32-bit counters. -/
def age (table : Table) (ticks : BitVec 32) (i : Fin arpTableDim) : BitVec 32 :=
  ticks - (table i).tickstamp

/-- The second loop of `arp_add_cache`, over the entries that are left: it stops
at an empty one and else ends at the last one of greatest age. `ticks i` is the
tick counter when the loop reads it for entry `i`. -/
def findSlot (table : Table) (ticks : Fin arpTableDim → BitVec 32) :
    List (Fin arpTableDim) → BitVec 32 → Fin arpTableDim → Fin arpTableDim
  | [], _, posMax => posMax
  | i :: rest, ageMax, posMax =>
      if (table i).ip = 0 then i
      else if ageMax ≤ age table (ticks i) i then
        findSlot table ticks rest (age table (ticks i) i) i
      else findSlot table ticks rest ageMax posMax

/-- `arp_add_cache`. `now` is the tick counter at the store into the entry. -/
def arpAddCache (table : Table) (ip : BitVec 32) (mac : Mac)
    (ticks : Fin arpTableDim → BitVec 32) (now : BitVec 32) : Table :=
  match search table ip with
  | some i => Function.update table i { table i with mac := mac, tickstamp := now }
  | none =>
      Function.update table (findSlot table ticks (List.finRange arpTableDim) 0 0) ⟨ip, mac, now⟩

/-- `arp_remove_cache`. -/
def arpRemoveCache (table : Table) (ip : BitVec 32) : Table × Bool :=
  match search table ip with
  | some i => (Function.update table i { table i with ip := 0 }, true)
  | none => (table, false)

/-- The search of the cache in `arp_ip_to_eth`. -/
def cachedMac (table : Table) (ip : BitVec 32) : Option Mac :=
  (search table ip).map fun i => (table i).mac

/-- What `arp_ip_to_eth` and `to_arp_layer` ask of the host. -/
structure Host where
  /-- `get_eth_mac_addr()`; `none` while the device is down. -/
  mac : Option Mac
  ip : BitVec 32
  netmask : BitVec 32

/-- `get_host_bcast`. -/
def Host.bcast (host : Host) : BitVec 32 := ~~~host.netmask ||| (host.ip &&& host.netmask)

def inaddrAny : BitVec 32 := 0

/-- `INADDR_LOOPBACK`: 127.0.0.1, in network format. -/
def inaddrLoopback : BitVec 32 := 0x0100007F

def inaddrBroadcast : BitVec 32 := 0xFFFFFFFF

/-- What `arp_ip_to_eth` can tell without asking the network. -/
inductive Resolution where
  | down
  | found (mac : Mac)
  /-- Send requests and search the cache again until the timeout. -/
  | ask
  deriving DecidableEq

/-- `arp_ip_to_eth`, up to the first search of the cache. -/
def arpIpToEth (host : Host) (table : Table) (ip : BitVec 32) : Resolution :=
  match host.mac with
  | none => .down
  | some own =>
      if ip = inaddrAny ∨ ip = host.ip ∨ ip = inaddrLoopback then .found own
      else if ip = host.bcast ∨ ip = inaddrBroadcast then .found fun _ => 0xFF
      else match cachedMac table ip with
        | some mac => .found mac
        | none => .ask

/-- The fields of a received ARP packet that are read. `arpOp` is in host order. -/
structure Packet where
  arpOp : BitVec 16
  arpEthSource : Mac
  arpIpSource : BitVec 32
  arpIpDest : BitVec 32

def arpOpRequest : BitVec 16 := 1

/-- `to_arp_layer`: the table, and the address to send a reply to. -/
def toArpLayer (host : Host) (table : Table) (packet : Packet)
    (ticks : Fin arpTableDim → BitVec 32) (now : BitVec 32) : Table × Option (BitVec 32 × Mac) :=
  (arpAddCache table packet.arpIpSource packet.arpEthSource ticks now,
    if packet.arpOp = arpOpRequest ∧ packet.arpIpDest = host.ip then
      some (packet.arpIpSource, packet.arpEthSource)
    else none)

/-- What happens to the table: a packet arrives, or one of the two operations is
called. -/
inductive Act where
  | packet (host : Host) (packet : Packet) (ticks : Fin arpTableDim → BitVec 32)
      (now : BitVec 32)
  | add (ip : BitVec 32) (mac : Mac) (ticks : Fin arpTableDim → BitVec 32) (now : BitVec 32)
  | remove (ip : BitVec 32)

def step (table : Table) : Act → Table
  | .packet host packet ticks now => (toArpLayer host table packet ticks now).1
  | .add ip mac ticks now => arpAddCache table ip mac ticks now
  | .remove ip => (arpRemoveCache table ip).1

/-- No address other than zero occurs twice. -/
def Distinct (table : Table) : Prop :=
  ∀ i j, (table i).ip ≠ 0 → (table i).ip = (table j).ip → i = j

/-- The entry `i` held an address and no longer does. -/
def Evicted (table table' : Table) (i : Fin arpTableDim) : Prop :=
  (table i).ip ≠ 0 ∧ (table' i).ip ≠ (table i).ip

variable {table : Table} {ip : BitVec 32} {mac : Mac} {ticks : Fin arpTableDim → BitVec 32}
  {now : BitVec 32} {i j : Fin arpTableDim}

theorem search_some (h : search table ip = some i) : (table i).ip = ip := by
  have hfound := List.find?_some h
  simpa using hfound

theorem search_none (h : search table ip = none) (i : Fin arpTableDim) : (table i).ip ≠ ip := by
  have hmiss := List.find?_eq_none.mp h i (List.mem_finRange i)
  simpa using hmiss

theorem Distinct.search (hd : Distinct table) (hi : (table i).ip = ip) (hne : ip ≠ 0) :
    search table ip = some i := by
  cases hs : Arp.search table ip with
  | none => exact absurd hi (search_none hs i)
  | some j =>
      have hj := search_some hs
      have hij : i = j := hd i j (by rwa [hi]) (hi.trans hj.symm)
      rw [hij]

/-- What the second loop returns: an empty entry, or with no entry empty one that
is at least as old as the entries of the list and as the oldest one so far. -/
theorem findSlot_spec (table : Table) (ticks : Fin arpTableDim → BitVec 32)
    (list : List (Fin arpTableDim)) (ageMax : BitVec 32) (posMax : Fin arpTableDim)
    (hpos : ageMax ≤ age table (ticks posMax) posMax) :
    let slot := findSlot table ticks list ageMax posMax
    (table slot).ip = 0 ∨ (∀ i ∈ list, (table i).ip ≠ 0) ∧
      ageMax ≤ age table (ticks slot) slot ∧
      ∀ i ∈ list, age table (ticks i) i ≤ age table (ticks slot) slot := by
  induction list generalizing ageMax posMax with
  | nil => exact .inr ⟨by simp, hpos, by simp⟩
  | cons i rest ih =>
      simp only [findSlot]
      split
      · rename_i hempty
        exact .inl hempty
      · rename_i hused
        split
        · rename_i holder
          -- Entry `i` becomes the oldest one so far.
          rcases ih (age table (ticks i) i) i (BitVec.le_refl _) with h | ⟨hrest, hmax, hall⟩
          · exact .inl h
          · refine .inr ⟨List.forall_mem_cons.mpr ⟨hused, hrest⟩, ?_,
              List.forall_mem_cons.mpr ⟨hmax, hall⟩⟩
            exact BitVec.le_trans holder hmax
        · rename_i hyounger
          have hle : age table (ticks i) i ≤ ageMax := (BitVec.le_total _ _).resolve_right hyounger
          rcases ih ageMax posMax hpos with h | ⟨hrest, hmax, hall⟩
          · exact .inl h
          · exact .inr ⟨List.forall_mem_cons.mpr ⟨hused, hrest⟩, hmax,
              List.forall_mem_cons.mpr ⟨BitVec.le_trans hle hmax, hall⟩⟩

/-- The slot for a new address is empty, or no slot is and it is one of the oldest. -/
theorem slot_spec (table : Table) (ticks : Fin arpTableDim → BitVec 32) :
    let slot := findSlot table ticks (List.finRange arpTableDim) 0 0
    (table slot).ip = 0 ∨ (∀ i, (table i).ip ≠ 0) ∧
      ∀ i, age table (ticks i) i ≤ age table (ticks slot) slot := by
  have hspec := findSlot_spec table ticks (List.finRange arpTableDim) 0 0
    (by simp [BitVec.le_def])
  rcases hspec with h | ⟨hused, -, hall⟩
  · exact .inl h
  · exact .inr ⟨fun i => hused i (List.mem_finRange i), fun i => hall i (List.mem_finRange i)⟩

/-- Adding an address rewrites one entry: that of the address, or without one the
slot that the second loop finds. -/
theorem arpAddCache_cases (table : Table) (ip : BitVec 32) (mac : Mac)
    (ticks : Fin arpTableDim → BitVec 32) (now : BitVec 32) :
    ∃ i, arpAddCache table ip mac ticks now = Function.update table i ⟨ip, mac, now⟩ ∧
      ((table i).ip = ip ∨ (∀ j, (table j).ip ≠ ip) ∧
        ((table i).ip = 0 ∨ (∀ j, (table j).ip ≠ 0) ∧
          ∀ j, age table (ticks j) j ≤ age table (ticks i) i)) := by
  unfold arpAddCache
  split
  · rename_i i hfound
    obtain rfl := search_some hfound
    exact ⟨i, rfl, .inl rfl⟩
  · rename_i hmiss
    exact ⟨_, rfl, .inr ⟨search_none hmiss, slot_spec table ticks⟩⟩

/-- Writing an address that no other entry holds keeps the addresses distinct. -/
theorem Distinct.update {entry : Entry} (hd : Distinct table)
    (hnew : entry.ip = 0 ∨ ∀ j, j ≠ i → (table j).ip ≠ entry.ip) :
    Distinct (Function.update table i entry) := by
  intro j k hj hjk
  rcases eq_or_ne j i with rfl | hji <;> rcases eq_or_ne k j with rfl | hkj
  · rfl
  · rw [Function.update_self, Function.update_of_ne hkj] at hjk
    rw [Function.update_self] at hj
    exact absurd hjk.symm (hnew.resolve_left hj k hkj)
  · rfl
  · rw [Function.update_of_ne hji] at hj hjk
    rcases eq_or_ne k i with rfl | hki
    · rw [Function.update_self] at hjk
      exact absurd hjk (hnew.resolve_left (hjk ▸ hj) j hji)
    · rw [Function.update_of_ne hki] at hjk
      exact hd j k hj hjk

theorem Distinct.arpAddCache (hd : Distinct table) (ip : BitVec 32) (mac : Mac)
    (ticks : Fin arpTableDim → BitVec 32) (now : BitVec 32) :
    Distinct (arpAddCache table ip mac ticks now) := by
  obtain ⟨i, heq, hcase⟩ := arpAddCache_cases table ip mac ticks now
  rw [heq]
  apply hd.update
  rcases eq_or_ne ip 0 with hzero | hne
  · exact .inl hzero
  · refine .inr fun j hji hj => ?_
    rcases hcase with hi | ⟨hnone, -⟩
    · exact hji (hd j i (by rwa [hj]) (hj.trans hi.symm))
    · exact hnone j hj

theorem Distinct.arpRemoveCache (hd : Distinct table) (ip : BitVec 32) :
    Distinct (arpRemoveCache table ip).1 := by
  unfold Arp.arpRemoveCache
  split
  · exact hd.update (.inl rfl)
  · exact hd

theorem Distinct.step (hd : Distinct table) (act : Act) : Distinct (step table act) := by
  cases act with
  | packet host packet ticks now => exact hd.arpAddCache _ _ _ _
  | add ip mac ticks now => exact hd.arpAddCache _ _ _ _
  | remove ip => exact hd.arpRemoveCache ip

theorem distinct_arpInit : Distinct arpInit := fun _ _ h => absurd rfl h

theorem distinct_of_run {acts : List Act} (h : Run (Updates step) arpInit acts table) :
    Distinct table := by
  refine h.invariant (I := Distinct) (fun s act t hd hstep => ?_) distinct_arpInit
  obtain rfl : step s act = t := hstep
  exact hd.step act

theorem Distinct.cachedMac_add (hd : Distinct table) (hne : ip ≠ 0) :
    cachedMac (Arp.arpAddCache table ip mac ticks now) ip = some mac := by
  have hd' := hd.arpAddCache ip mac ticks now
  obtain ⟨i, heq, -⟩ := arpAddCache_cases table ip mac ticks now
  rw [heq] at hd' ⊢
  have hfound : Arp.search (Function.update table i ⟨ip, mac, now⟩) ip = some i :=
    hd'.search (by rw [Function.update_self]) hne
  rw [cachedMac, hfound, Option.map_some, Function.update_self]

/-- An entry that loses its address is the one that was written, no entry was
empty, and none was older when the loop came by. -/
theorem evicted_add (h : Evicted table (arpAddCache table ip mac ticks now) i) :
    (∀ j, Evicted table (arpAddCache table ip mac ticks now) j → j = i) ∧
      (∀ j, (table j).ip ≠ 0) ∧ ∀ j, age table (ticks j) j ≤ age table (ticks i) i := by
  obtain ⟨slot, heq, hcase⟩ := arpAddCache_cases table ip mac ticks now
  have hslot : ∀ j, Evicted table (arpAddCache table ip mac ticks now) j → j = slot := by
    intro j hj
    by_contra hne
    rw [heq] at hj
    exact hj.2 (by rw [Function.update_of_ne hne])
  obtain rfl := hslot i h
  refine ⟨hslot, ?_⟩
  rcases hcase with hip | ⟨-, hempty | hfull⟩
  · have hsame := h.2
    rw [heq, Function.update_self] at hsame
    exact absurd hip.symm hsame
  · exact absurd hempty h.1
  · exact hfull

/-- The ARP cache after any sequence of packets, additions and removals, whatever
the tick counter shows: the addresses are distinct, an address that is added can
be looked up at once, and adding one evicts at most one other entry, only from a
full table, and of greatest age. -/
theorem arp_cache_coherent {acts : List Act} (h : Run (Updates step) arpInit acts table) :
    Distinct table ∧
      ∀ ip mac ticks now, let table' := arpAddCache table ip mac ticks now
        (ip ≠ 0 → cachedMac table' ip = some mac) ∧
          ∀ i, Evicted table table' i →
            (∀ j, Evicted table table' j → j = i) ∧ (∀ j, (table j).ip ≠ 0) ∧
              ∀ j, age table (ticks j) j ≤ age table (ticks i) i := by
  have hd := distinct_of_run h
  exact ⟨hd, fun ip mac ticks now => ⟨fun hne => hd.cachedMac_add hne, fun i hi => evicted_add hi⟩⟩

/-- Ten hosts that fill the table while the tick counter wraps around. -/
def tenHosts : List Act :=
  [0xFFFFFFF8, 0xFFFFFFF9, 0xFFFFFFFA, 0xFFFFFFFB, 0xFFFFFFFC, 0xFFFFFFFD, 0xFFFFFFFE,
    0xFFFFFFFF, 0, 1].map fun now => .add (now + 100) (fun _ => 7) (fun _ => now) now

theorem arp_cache_coherent_full :
    let table := tenHosts.foldl step arpInit
    let table' := arpAddCache table 9 (fun _ => 5) (fun _ => 2) 2
    cachedMac table' 9 = some (fun _ => 5) ∧ Evicted table table' 0 ∧
      (∀ j, (table j).ip ≠ 0) ∧ ∀ j, age table 2 j ≤ age table 2 0 := by
  obtain ⟨-, hadd⟩ := arp_cache_coherent (Run.of_foldl step arpInit tenHosts)
  obtain ⟨hcached, hevicted⟩ := hadd 9 (fun _ => 5) (fun _ => 2) 2
  have hzero : Evicted (tenHosts.foldl step arpInit)
      (arpAddCache (tenHosts.foldl step arpInit) 9 (fun _ => 5) (fun _ => 2) 2) 0 := by
    unfold Evicted
    decide
  obtain ⟨-, hfull, hold⟩ := hevicted 0 hzero
  exact ⟨hcached (by decide), hzero, hfull, hold⟩

end OsdevArchive.Minirighi.Arp
