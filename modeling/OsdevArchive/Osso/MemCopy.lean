import OsdevArchive.Osso.Mallosso

/-!
The two versions of `mem_alloc_and_copy` and `mem_alloc_and_fill` (`kernel/process.c`). With
`NEW_MEM_ALLOC_AND_COPY` the bytes are written page by page, otherwise each byte looks for its
page. Neither looks whether `getpagetable` returned `NULL`.
-/

namespace OsdevArchive.Osso.PageTables

open OsdevArchive.Osso.Memory (Dword dimPage)

/-- Where the bytes come from: the memory behind `source`, one value, or a file. -/
inductive Feed where
  | copy (source : Nat → Nat × Nat)
  | fill (value : Byte)
  /-- The bytes of a file that nothing is written to meanwhile. -/
  | image (bytes : Nat → Byte)

/-- The byte with this index, in the memory as it is now. -/
def Feed.read (s : Space) : Feed → Nat → Byte
  | .copy source, i => s.data (source i).1 (source i).2
  | .fill value, _ => value
  | .image bytes, i => bytes i

namespace Space

/-- The check of the directory entry. The page 0 stands for `NULL`. -/
def ensureTable (s : Space) (level a : Dword) : Space :=
  if (s.pagedir (pde a)).present then s
  else
    let (paggina, s) := s.getpagetable
    s.setDir a ⟨paggina.getD 0, true, true, level = userLevel⟩

/-- The check of the page table entry; a panic leaves the memory as it is. -/
def ensurePage (s : Space) (level a : Dword) : Except Space Space :=
  if (s.entry a).present then .ok s
  else
    match s.getpage with
    | (some paggina, s) => .ok (s.setEntry a ⟨paggina, true, true, level = userLevel⟩)
    | (none, s) => .error s

def prepare (s : Space) (level a : Dword) : Except Space Space :=
  (s.ensureTable level a).ensurePage level a

/-- `physical_address`. -/
def physicalAddress (s : Space) (a : Dword) : Nat := (s.entry a).baseAddr * 4096 + offset a

def write (s : Space) (address : Nat) (byte : Byte) : Space :=
  s.poke (address / 4096) (address % 4096) byte

/-- The loop of the version without `NEW_MEM_ALLOC_AND_COPY`. -/
def byteLoop (level : Dword) (feed : Feed) (dest : Dword) : Nat → Nat → Space → Except Space Space
  | 0, _, s => .ok s
  | n + 1, i, s =>
    (s.prepare level (dest + BitVec.ofNat 32 i)).bind fun s =>
      byteLoop level feed dest n (i + 1)
        (s.write (s.physicalAddress (dest + BitVec.ofNat 32 i)) (feed.read s i))

/-- The inner loop of the new version: `n` bytes from the physical address `write` on. -/
def chunk (feed : Feed) : Nat → Nat → Nat → Space → Space
  | 0, _, _, s => s
  | n + 1, write, i, s => chunk feed n (write + 1) (i + 1) (s.write write (feed.read s i))

/-- The loop of the version with `NEW_MEM_ALLOC_AND_COPY`. -/
def chunkLoop (level : Dword) (feed : Feed) :
    Nat → Dword → Dword → Nat → Space → Except Space Space
  | 0, _, _, _, s => .ok s
  | fuel + 1, current, todo, i, s =>
    if todo = 0 then .ok s
    else
      (s.prepare level current).bind fun s =>
        let rest := dimPage - current % dimPage
        let rest := if todo < rest then todo else rest
        let n := (current + rest).toNat - current.toNat
        chunkLoop level feed fuel (current + BitVec.ofNat 32 n) (todo - rest) (i + n)
          (chunk feed n (s.physicalAddress current) i s)

/-- `mem_alloc_and_copy` and `mem_alloc_and_fill` without `NEW_MEM_ALLOC_AND_COPY`. -/
def allocBytes (s : Space) (level : Dword) (feed : Feed) (dest size : Dword) :
    Except Space Space :=
  byteLoop level feed dest size.toNat 0 s

/-- `mem_alloc_and_copy` and `mem_alloc_and_fill` with `NEW_MEM_ALLOC_AND_COPY`. -/
def allocChunks (s : Space) (level : Dword) (feed : Feed) (dest size : Dword) :
    Except Space Space :=
  chunkLoop level feed size.toNat dest size 0 s

def memAllocAndCopy (s : Space) (source : Nat → Nat × Nat) (dest size level : Dword) :
    Except Space Space :=
  s.allocBytes level (.copy source) dest size

def memAllocAndFill (s : Space) (value : Byte) (dest size level : Dword) : Except Space Space :=
  s.allocBytes level (.fill value) dest size

def memAllocAndCopyNew (s : Space) (source : Nat → Nat × Nat) (dest size level : Dword) :
    Except Space Space :=
  s.allocChunks level (.copy source) dest size

def memAllocAndFillNew (s : Space) (value : Byte) (dest size level : Dword) :
    Except Space Space :=
  s.allocChunks level (.fill value) dest size

end Space

/-! ### The versions do the same -/

variable {s t u : Space} {level dest a b : Dword} {feed : Feed} {n m i : Nat}

/-- The page of an address is there. -/
def Ready (s : Space) (a : Dword) : Prop :=
  (s.pagedir (pde a)).present ∧ (s.entry a).present

theorem prepare_of_ready (h : Ready s a) : s.prepare level a = .ok s := by
  obtain ⟨hdir, hpresent⟩ := h
  rw [Space.prepare, Space.ensureTable, if_pos hdir, Space.ensurePage, if_pos hpresent]

theorem entry_congr_vpn (h : vpn b = vpn a) : s.entry b = s.entry a := by
  obtain ⟨hpde, hpte⟩ := vpn_eq_iff.mp h
  unfold Space.entry
  rw [hpde, hpte]

theorem Ready.congr_vpn (h : Ready s a) (hb : vpn b = vpn a) : Ready s b := by
  obtain ⟨hdir, hpresent⟩ := h
  refine ⟨?_, entry_congr_vpn hb ▸ hpresent⟩
  rw [(vpn_eq_iff.mp hb).1]
  exact hdir

theorem ensureTable_present : ((s.ensureTable level a).pagedir (pde a)).present := by
  unfold Space.ensureTable
  split
  · assumption
  · dsimp only
    rw [setDir_self]

/-- After both checks the page is there. -/
theorem ready_of_prepare (h : s.prepare level a = .ok t) : Ready t a := by
  have hdir : ((s.ensureTable level a).pagedir (pde a)).present := ensureTable_present
  unfold Space.prepare Space.ensurePage at h
  split at h
  · rename_i hpresent
    obtain rfl := Except.ok.inj h
    exact ⟨hdir, hpresent⟩
  · split at h
    · rename_i p r hcall
      obtain rfl := Except.ok.inj h
      obtain ⟨-, -, -, -, -, -, hr⟩ := getpage_some hcall
      have hdirs : r.pagedir = (s.ensureTable level a).pagedir := by rw [hr]
      refine ⟨?_, by rw [setEntry_self]⟩
      change (r.pagedir (pde a)).present
      rw [hdirs]
      exact hdir
    · cases h

/-- What follows an address by less than a page. -/
theorem vpn_succ (h : offset a + 1 < 4096) :
    vpn (a + 1) = vpn a ∧ offset (a + 1) = offset a + 1 := by
  have hlt := a.isLt
  unfold offset at h ⊢
  unfold vpn
  rw [BitVec.toNat_add, show (1 : Dword).toNat = 1 from rfl]
  omega

/-- In a page that is there, the bytes are written one after the other. -/
theorem byteLoop_chunk (hready : Ready s (dest + BitVec.ofNat 32 i))
    (hn : offset (dest + BitVec.ofNat 32 i) + n ≤ 4096) :
    Space.byteLoop level feed dest (n + m) i s =
      Space.byteLoop level feed dest m (i + n)
        (Space.chunk feed n (s.physicalAddress (dest + BitVec.ofNat 32 i)) i s) := by
  induction n generalizing i s with
  | zero => rw [Nat.zero_add, Nat.add_zero, Space.chunk]
  | succ n ih =>
    have hstep : Space.byteLoop level feed dest (n + 1 + m) i s =
        Space.byteLoop level feed dest (n + m) (i + 1)
          (s.write (s.physicalAddress (dest + BitVec.ofNat 32 i)) (feed.read s i)) := by
      rw [Nat.add_right_comm, Space.byteLoop, prepare_of_ready hready]
      rfl
    rw [hstep]
    cases n with
    | zero => rw [Nat.zero_add]; rfl
    | succ n =>
      have hnext : dest + BitVec.ofNat 32 (i + 1) = dest + BitVec.ofNat 32 i + 1 := by
        rw [BitVec.ofNat_add, ← BitVec.add_assoc]
        rfl
      obtain ⟨hvpn, hoff⟩ := vpn_succ (a := dest + BitVec.ofNat 32 i) (by omega)
      have hready' : Ready (s.write (s.physicalAddress (dest + BitVec.ofNat 32 i))
          (feed.read s i)) (dest + BitVec.ofNat 32 (i + 1)) := by
        rw [hnext]
        exact hready.congr_vpn hvpn
      have haddress : s.physicalAddress (dest + BitVec.ofNat 32 i + 1) =
          s.physicalAddress (dest + BitVec.ofNat 32 i) + 1 := by
        unfold Space.physicalAddress
        rw [entry_congr_vpn hvpn, hoff, Nat.add_assoc]
      rw [ih hready' (by rw [hnext, hoff]; omega), Nat.add_right_comm i 1, Nat.add_assoc i,
        hnext]
      change _ = Space.byteLoop level feed dest m (i + (n + 1 + 1)) (Space.chunk feed (n + 1)
        (s.physicalAddress (dest + BitVec.ofNat 32 i) + 1) (i + 1) _)
      rw [← haddress]
      rfl

/-- Where there is a byte to write, the page may be looked for first. -/
theorem byteLoop_prepare (level : Dword) (feed : Feed) (dest : Dword) (n i : Nat) (s : Space) :
    Space.byteLoop level feed dest (n + 1) i s =
      (s.prepare level (dest + BitVec.ofNat 32 i)).bind
        (Space.byteLoop level feed dest (n + 1) i) := by
  rw [Space.byteLoop]
  cases hprepare : s.prepare level (dest + BitVec.ofNat 32 i) with
  | error t => rfl
  | ok t =>
    have hready := ready_of_prepare hprepare
    have hagain : t.prepare level (dest + BitVec.ofNat 32 i) = .ok t := prepare_of_ready hready
    change _ = (t.prepare level (dest + BitVec.ofNat 32 i)).bind _
    exact hagain ▸ rfl

/-- The bytes up to the end of the page, or all of them. -/
theorem toNat_rest (current todo : Dword) :
    (if todo < dimPage - current % dimPage then todo else dimPage - current % dimPage).toNat =
      min (4096 - offset current) todo.toNat := by
  have hpage : dimPage.toNat = 4096 := rfl
  have hmod : (current % dimPage).toNat = offset current := by
    rw [BitVec.toNat_umod, hpage]
    rfl
  have hoff : offset current < 4096 := Nat.mod_lt _ (by omega)
  have hle : current % dimPage ≤ dimPage := by
    rw [BitVec.le_def, hmod, hpage]
    omega
  have hrest : (dimPage - current % dimPage).toNat = 4096 - offset current := by
    rw [BitVec.toNat_sub_of_le hle, hmod, hpage]
  split
  · rename_i hlt
    rw [BitVec.lt_def, hrest] at hlt
    omega
  · rename_i hge
    rw [BitVec.lt_def, hrest] at hge
    rw [hrest]
    omega

theorem chunkLoop_eq {fuel : Nat} {current todo : Dword} (hfuel : todo.toNat ≤ fuel)
    (hcurrent : current = dest + BitVec.ofNat 32 i)
    (hbound : current.toNat + todo.toNat < 2 ^ 32) :
    Space.chunkLoop level feed fuel current todo i s =
      Space.byteLoop level feed dest todo.toNat i s := by
  induction fuel generalizing current todo i s with
  | zero =>
    rw [Nat.le_zero.mp hfuel]
    rfl
  | succ fuel ih =>
    unfold Space.chunkLoop
    by_cases htodo : todo = 0
    · rw [if_pos htodo, htodo]
      rfl
    · have hpos : 0 < todo.toNat := by
        apply Nat.pos_of_ne_zero
        intro hzero
        exact htodo (BitVec.eq_of_toNat_eq hzero)
      have hoff : offset current < 4096 := Nat.mod_lt _ (by omega)
      dsimp only
      generalize hrest : (if todo < dimPage - current % dimPage then todo
        else dimPage - current % dimPage) = rest
      have hmin : rest.toNat = min (4096 - offset current) todo.toNat := by
        rw [← hrest, toNat_rest]
      have hsum : (current + rest).toNat = current.toNat + rest.toNat := by
        rw [BitVec.toNat_add, Nat.mod_eq_of_lt (by omega)]
      have hn : (current + rest).toNat - current.toNat = rest.toNat := by omega
      have hle : rest ≤ todo := by
        rw [BitVec.le_def]
        omega
      have hleft : (todo - rest).toNat = todo.toNat - rest.toNat := BitVec.toNat_sub_of_le hle
      have hsplit : todo.toNat = rest.toNat + (todo - rest).toNat := by omega
      rw [if_neg htodo, hn]
      obtain ⟨k, hk⟩ : ∃ k, todo.toNat = k + 1 := ⟨todo.toNat - 1, by omega⟩
      rw [hk, byteLoop_prepare, ← hcurrent]
      cases hprepare : s.prepare level current with
      | error t => rfl
      | ok t =>
        have hready := ready_of_prepare hprepare
        change Space.chunkLoop level feed fuel _ _ _ _ = Space.byteLoop level feed dest (k + 1) i t
        rw [ih, ← hk, hsplit, hcurrent, byteLoop_chunk (hcurrent ▸ hready)]
        · rw [← hcurrent]
          omega
        · omega
        · rw [hcurrent, BitVec.add_assoc, ← BitVec.ofNat_add]
        · rw [BitVec.toNat_add, BitVec.toNat_ofNat]
          omega

/-- Below the end of the addresses, the two versions are the same function. -/
theorem allocChunks_eq (s : Space) (level : Dword) (feed : Feed) {dest size : Dword}
    (hbound : dest.toNat + size.toNat < 2 ^ 32) :
    s.allocChunks level feed dest size = s.allocBytes level feed dest size :=
  chunkLoop_eq (Nat.le_refl _) (by simp) hbound

end OsdevArchive.Osso.PageTables
