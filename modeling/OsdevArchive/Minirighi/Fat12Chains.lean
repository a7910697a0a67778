import Mathlib.Data.List.Nodup
import OsdevArchive.Minirighi.Fat12

/-!
The loops of the FAT12 driver that follow the chain of a file (`fs/fat/fat12.c`): counting its
clusters, reading and writing them, and clearing its entries. A loop looks the next cluster up in
`lfat`, whatever the cluster is, and ends at a value that marks an end.
-/

namespace OsdevArchive.Minirighi.Fat12

open OsdevArchive.Lib.Chained OsdevArchive.Minirighi.Inet

/-- What a loop may run into. -/
inductive Fault where
  /-- An access to `lfat.data` behind its elements. -/
  | outside
  /-- A loop that has not ended within its rounds. -/
  | unending
  /-- A division by `fat12_super.BytesPerSector` after the mount has been invalidated. -/
  | division
  deriving DecidableEq

/-- The values that end a chain. -/
def EndMark (value : Word) : Prop := value = 0 ∨ 0x0FF0 ≤ value.toNat

instance decidableEndMark : DecidablePred EndMark := fun _ => inferInstanceAs (Decidable (_ ∨ _))

/-- `next_sector`: the value of `*next` and the result. -/
def nextSector (lfat : Nat → Word) (actual : Word) : Except Fault (Word × Bool) :=
  if actual.toNat < lfatLength then
    .ok (lfat actual.toNat, !decide (EndMark (lfat actual.toNat)))
  else .error .outside

/-- The loop of `how_many_cluster`. -/
def countLoop (lfat : Nat → Word) : (fuel : Nat) → (cl c : Word) → Except Fault Word
  | 0, _, _ => .error .unending
  | fuel + 1, cl, c => do
      let (cl, more) ← nextSector lfat cl
      if more then countLoop lfat fuel cl (c + 1) else pure c

/-- `sizeof(FileEntry_t)`. -/
def fileEntrySize : Nat := 32

/-- `how_many_cluster`. -/
def howManyCluster (fuel : Nat) (s : St) (start : Word) : Except Fault Nat :=
  if start = 0 then
    if s.super.bytesPerSector = 0 then .error .division
    else pure (s.super.rootDirectoryEntries * fileEntrySize / s.super.bytesPerSector)
  else do
    let c ← countLoop s.lfat fuel start 1
    pure c.toNat

/-- `dir_start` and `data_start`, which `fat12_mount` sets. -/
structure Places where
  dirStart : Nat
  dataStart : Nat

/-- What the driver meets: whether there is memory for a buffer, and for each transfer whether it
succeeds (`none`) or fails after some sectors. -/
structure Env where
  memory : Bool
  io : Nat → Option Nat

/-- The buffer after `fdc_read` of `count` sectors to its place `off`. -/
def readSectors (disk : Nat → Byte) (block count : Nat) (tmp : Nat → Byte) (off a : Nat) : Byte :=
  if off ≤ a ∧ a < off + count * fatSectorSize then disk (block * fatSectorSize + (a - off))
  else tmp a

/-- `memcpy( buf, tmp_buf, size )`. -/
def copied (buf tmp : Nat → Byte) (size a : Nat) : Byte := if a < size then tmp a else buf a

/-- The loop of `fat12_read_clusters`; `none` after a transfer that fails. -/
def readLoop (p : Places) (io : Nat → Option Nat) (s : St) :
    (rounds i : Nat) → (clust : Word) → (tmp : Nat → Byte) → Except Fault (Option (Nat → Byte))
  | 0, _, _, tmp => pure (some tmp)
  | rounds + 1, i, clust, tmp =>
      match io i with
      | some _ => pure none
      | none => do
          let tmp := readSectors s.disk (p.dataStart + clust.toNat) 1 tmp
            (i * s.super.bytesPerSector)
          let (clust, more) ← nextSector s.lfat clust
          if more then readLoop p io s rounds (i + 1) clust tmp else pure (some tmp)

/-- The transfers of `fat12_read_clusters`; `none` after one that fails. -/
def readTransfers (p : Places) (env : Env) (s : St) (n : Nat) (cstart : Word) :
    Except Fault (Option (Nat → Byte)) :=
  if cstart = 0 then
    -- the root directory lies in one piece
    match env.io 0 with
    | some _ => pure none
    | none => pure (some (readSectors s.disk p.dirStart n (fun _ => 0) 0))
  else readLoop p env.io s n 0 cstart fun _ => 0

/-- `fat12_read_clusters`: the result, where `none` is an error, and the contents of `buf`. -/
def readClusters (p : Places) (env : Env) (fuel : Nat) (s : St) (buf : Nat → Byte) (size : Nat)
    (cstart cnum : Word) : Except Fault (Option Nat × (Nat → Byte) × St) := do
  let many ← howManyCluster fuel s cstart
  let n := min many cnum.toNat
  if n = 0 ∨ size = 0 then pure (some 0, buf, s)
  else if env.memory = false then pure (none, buf, s)
  else
    let size := min size (n * s.super.bytesPerSector)
    let read ← readTransfers p env s n cstart
    match read with
    | none => pure (none, buf, s.invalidate)
    | some tmp => pure (some size, copied buf tmp size, s)

/-- The loop of `fat12_write_clusters`, and whether it gets to its end. -/
def writeLoop (p : Places) (io : Nat → Option Nat) (tmp : Nat → Byte) :
    (rounds i : Nat) → (clust : Word) → St → Except Fault (Bool × St)
  | 0, _, _, s => pure (true, s)
  | rounds + 1, i, clust, s =>
      let block := p.dataStart + clust.toNat
      let sector := fun a => tmp (i * s.super.bytesPerSector + a)
      match io i with
      | some done => pure (false, (s.fdcWrite block (min done 1) sector).invalidate)
      | none => do
          let s := s.fdcWrite block 1 sector
          let (clust, more) ← nextSector s.lfat clust
          if more then writeLoop p io tmp rounds (i + 1) clust s else pure (true, s)

/-- The transfers of `fat12_write_clusters`, and whether they all succeed. -/
def writeTransfers (p : Places) (env : Env) (s : St) (tmp : Nat → Byte) (n : Nat) (cstart : Word) :
    Except Fault (Bool × St) :=
  if cstart = 0 then
    match env.io 0 with
    | some done => pure (false, (s.fdcWrite p.dirStart (min done n) tmp).invalidate)
    | none => pure (true, s.fdcWrite p.dirStart n tmp)
  else writeLoop p env.io tmp n 0 cstart s

/-- `fat12_write_clusters`: the result, where `none` is an error. -/
def writeClusters (p : Places) (env : Env) (fuel : Nat) (s : St) (buf : Nat → Byte) (size : Nat)
    (cstart cnum : Word) : Except Fault (Option Nat × St) := do
  let many ← howManyCluster fuel s cstart
  let n := min many cnum.toNat
  if n = 0 ∨ size = 0 then pure (some 0, s)
  else if env.memory = false then pure (none, s)
  else
    let size := min size (n * s.super.bytesPerSector)
    let tmp := copied (fun _ => 0) buf size
    let (ok, s) ← writeTransfers p env s tmp n cstart
    pure (if ok then some size else none, s)

/-- The loop of `fat12_do_delete_file` and the assignment behind it. -/
def deleteLoop : (fuel : Nat) → (cluster : Word) → (lfat : Nat → Word) → Except Fault (Nat → Word)
  | 0, _, _ => .error .unending
  | fuel + 1, cluster, lfat => do
      let (next, more) ← nextSector lfat cluster
      let lfat := Function.update lfat cluster.toNat 0
      if more then deleteLoop fuel next lfat else pure lfat

/-- `fat12_do_delete_file`. -/
def doDeleteFile (fuel : Nat) (s : St) (cluster : Word) : Except Fault St := do
  let lfat ← deleteLoop fuel cluster s.lfat
  pure { s with lfat := lfat, dirty := true }

/-! ## Single steps -/

variable {lfat table : Nat → Word} {start cl c d : Word} {fuel : Nat} {s t : St} {p : Places}

/-- The cluster behind a cluster. -/
def linkOf (lfat : Nat → Word) (c : Word) : Word := lfat c.toNat

/-- The links lead from a cluster to another one. -/
abbrev Leads (lfat : Nat → Word) : Word → Word → Prop := Reached (linkOf lfat) EndMark

theorem nextSector_ok (h : c.toNat < lfatLength) :
    nextSector lfat c = .ok (linkOf lfat c, !decide (EndMark (linkOf lfat c))) := if_pos h

theorem lt_of_nextSector {r : Word × Bool} (h : nextSector lfat c = .ok r) :
    c.toNat < lfatLength := by
  unfold nextSector at h
  split at h
  · assumption
  · cases h

theorem ok_bind {α β : Type} (a : α) (f : α → Except Fault β) : Except.ok a >>= f = f a := rfl

/-- A round of a loop: the last one if the link behind the cluster is an end mark. -/
theorem next_ok {β : Type} (A B : Word → Except Fault β) (h : c.toNat < lfatLength) :
    (do
      let (next, more) ← nextSector lfat c
      if more then A next else B next) =
    if EndMark (linkOf lfat c) then B (linkOf lfat c) else A (linkOf lfat c) := by
  rw [nextSector_ok h]
  change (if (!decide (EndMark (linkOf lfat c))) = true then _ else _) = _
  by_cases hend : EndMark (linkOf lfat c)
  · rw [if_pos hend, decide_eq_true hend]
    rfl
  · rw [if_neg hend, decide_eq_false hend]
    rfl

/-- A bind that returns has a first part that returns. -/
theorem bind_ok {α β : Type} {x : Except Fault α} {f : α → Except Fault β} {b : β}
    (h : x >>= f = .ok b) : ∃ a, x = .ok a ∧ f a = .ok b := by
  cases x with
  | error e => cases h
  | ok a => exact ⟨a, rfl, h⟩

/-! ## The condition -/

/-- All clusters that the links lead to are in the table, and except from the number 0 they lead to
an end. -/
structure Walkable (lfat : Nat → Word) (start : Word) : Prop where
  inside : ∀ d, Leads lfat start d → d.toNat < lfatLength
  ends : start ≠ 0 → ∃ d, Leads lfat start d ∧ EndMark (linkOf lfat d)

/-- The loops return, without an access outside of the table. -/
structure WalksInside (p : Places) (s : St) (start : Word) : Prop where
  count : ∃ fuel n, howManyCluster fuel s start = .ok n
  read : ∀ env buf size cnum, ∃ fuel r, readClusters p env fuel s buf size start cnum = .ok r
  write : ∀ env buf size cnum, ∃ fuel r, writeClusters p env fuel s buf size start cnum = .ok r
  delete : ∃ fuel t, doDeleteFile fuel s start = .ok t

/-! ## Counting -/

theorem countLoop_succ (h : cl.toNat < lfatLength) (k : Word) :
    countLoop lfat (fuel + 1) cl k =
      if EndMark (linkOf lfat cl) then .ok k
      else countLoop lfat fuel (linkOf lfat cl) (k + 1) :=
  next_ok (fun next => countLoop lfat fuel next (k + 1)) (fun _ => .ok k) h

/-- Counting that ends has stayed in the table and has come to an end mark. -/
theorem countLoop_spec {k n : Word} (h : countLoop lfat fuel cl k = .ok n) :
    (∀ d, Leads lfat cl d → d.toNat < lfatLength) ∧
      ∃ d, Leads lfat cl d ∧ EndMark (linkOf lfat d) := by
  induction fuel generalizing cl k with
  | zero => cases h
  | succ fuel ih =>
    have hcl : cl.toNat < lfatLength := by
      obtain ⟨r, hr, -⟩ := bind_ok h
      exact lt_of_nextSector hr
    rw [countLoop_succ hcl] at h
    split at h
    · next hend =>
      refine ⟨fun d hd => ?_, cl, .here, hend⟩
      cases hd with
      | here => exact hcl
      | link hgo _ => exact absurd hend hgo
    · next hgo =>
      obtain ⟨hinside, d, hd, hmark⟩ := ih h
      refine ⟨fun e he => ?_, d, .link hgo hd, hmark⟩
      cases he with
      | here => exact hcl
      | link _ he => exact hinside e he

theorem countLoop_ends (h : Leads lfat cl d) (hmark : EndMark (linkOf lfat d))
    (hinside : ∀ e, Leads lfat cl e → e.toNat < lfatLength) (k : Word) :
    ∃ fuel n, countLoop lfat fuel cl k = .ok n := by
  induction h generalizing k with
  | @here c =>
    refine ⟨1, k, ?_⟩
    rw [countLoop_succ (hinside c .here), if_pos hmark]
  | @link c d hgo _ ih =>
    obtain ⟨fuel, n, hn⟩ := ih hmark (fun e he => hinside e (.link hgo he)) (k + 1)
    refine ⟨fuel + 1, n, ?_⟩
    rw [countLoop_succ (hinside c .here), if_neg hgo]
    exact hn

/-! ## Reading and writing -/

variable {io : Nat → Option Nat} {rounds i done : Nat} {tmp : Nat → Byte}

theorem readLoop_fails (hio : io i = some done) :
    readLoop p io s (rounds + 1) i cl tmp = .ok none := by
  rw [readLoop, hio]
  rfl

theorem readLoop_succ (hio : io i = none) (h : cl.toNat < lfatLength) :
    readLoop p io s (rounds + 1) i cl tmp =
      let tmp := readSectors s.disk (p.dataStart + cl.toNat) 1 tmp (i * s.super.bytesPerSector)
      if EndMark (linkOf s.lfat cl) then .ok (some tmp)
      else readLoop p io s rounds (i + 1) (linkOf s.lfat cl) tmp := by
  rw [readLoop, hio]
  exact next_ok (fun next => readLoop p io s rounds (i + 1) next _) (fun _ => .ok (some _)) h

theorem writeLoop_fails (hio : io i = some done) :
    writeLoop p io tmp (rounds + 1) i cl s =
      .ok (false, (s.fdcWrite (p.dataStart + cl.toNat) (min done 1)
        fun a => tmp (i * s.super.bytesPerSector + a)).invalidate) := by
  rw [writeLoop, hio]
  rfl

theorem writeLoop_succ (hio : io i = none) (h : cl.toNat < lfatLength) :
    writeLoop p io tmp (rounds + 1) i cl s =
      let s' := s.fdcWrite (p.dataStart + cl.toNat) 1
        fun a => tmp (i * s.super.bytesPerSector + a)
      if EndMark (linkOf s.lfat cl) then .ok (true, s')
      else writeLoop p io tmp rounds (i + 1) (linkOf s.lfat cl) s' := by
  rw [writeLoop, hio]
  exact next_ok (fun next => writeLoop p io tmp rounds (i + 1) next _) (fun _ => .ok (true, _)) h

/-- A loop over at most `rounds` clusters returns where the links stay in the table. -/
theorem readLoop_ends (hinside : ∀ e, Leads s.lfat cl e → e.toNat < lfatLength) (rounds i : Nat)
    (tmp : Nat → Byte) : ∃ r, readLoop p io s rounds i cl tmp = .ok r := by
  induction rounds generalizing cl i tmp with
  | zero => exact ⟨_, rfl⟩
  | succ rounds ih =>
    cases hio : io i with
    | some done => exact ⟨_, readLoop_fails hio⟩
    | none =>
      rw [readLoop_succ hio (hinside cl .here)]
      dsimp only
      split
      · exact ⟨_, rfl⟩
      · next hgo => exact ih (fun e he => hinside e (.link hgo he)) _ _

theorem writeLoop_ends (hinside : ∀ e, Leads s.lfat cl e → e.toNat < lfatLength)
    (rounds i : Nat) : ∃ r, writeLoop p io tmp rounds i cl s = .ok r := by
  induction rounds generalizing cl i s with
  | zero => exact ⟨_, rfl⟩
  | succ rounds ih =>
    cases hio : io i with
    | some done => exact ⟨_, writeLoop_fails hio⟩
    | none =>
      rw [writeLoop_succ hio (hinside cl .here)]
      dsimp only
      split
      · exact ⟨_, rfl⟩
      · next hgo =>
        apply ih
        exact fun e he => hinside e (.link hgo he)

theorem readTransfers_ends
    (hinside : start ≠ 0 → ∀ d, Leads s.lfat start d → d.toNat < lfatLength) (env : Env) (n : Nat) :
    ∃ r, readTransfers p env s n start = .ok r := by
  unfold readTransfers
  split
  · cases env.io 0 <;> exact ⟨_, rfl⟩
  · next hroot => exact readLoop_ends (hinside hroot) _ _ _

theorem writeTransfers_ends
    (hinside : start ≠ 0 → ∀ d, Leads s.lfat start d → d.toNat < lfatLength) (env : Env)
    (tmp : Nat → Byte) (n : Nat) : ∃ r, writeTransfers p env s tmp n start = .ok r := by
  unfold writeTransfers
  split
  · cases env.io 0 <;> exact ⟨_, rfl⟩
  · next hroot => exact writeLoop_ends (hinside hroot) _ _

/-- Reading returns where counting does and where the links stay in the table. -/
theorem readClusters_ends {n : Nat} (hcount : howManyCluster fuel s start = .ok n)
    (hinside : start ≠ 0 → ∀ d, Leads s.lfat start d → d.toNat < lfatLength) (env : Env)
    (buf : Nat → Byte) (size : Nat) (cnum : Word) :
    ∃ r, readClusters p env fuel s buf size start cnum = .ok r := by
  unfold readClusters
  rw [hcount, ok_bind]
  dsimp only
  split
  · exact ⟨_, rfl⟩
  · split
    · exact ⟨_, rfl⟩
    · obtain ⟨r, hr⟩ := readTransfers_ends (p := p) hinside env (min n cnum.toNat)
      rw [hr, ok_bind]
      cases r <;> exact ⟨_, rfl⟩

theorem writeClusters_ends {n : Nat} (hcount : howManyCluster fuel s start = .ok n)
    (hinside : start ≠ 0 → ∀ d, Leads s.lfat start d → d.toNat < lfatLength) (env : Env)
    (buf : Nat → Byte) (size : Nat) (cnum : Word) :
    ∃ r, writeClusters p env fuel s buf size start cnum = .ok r := by
  unfold writeClusters
  rw [hcount, ok_bind]
  dsimp only
  split
  · exact ⟨_, rfl⟩
  · split
    · exact ⟨_, rfl⟩
    · obtain ⟨r, hr⟩ := writeTransfers_ends (p := p) hinside env
        (copied (fun _ => 0) buf (min size (min n cnum.toNat * s.super.bytesPerSector)))
        (min n cnum.toNat)
      rw [hr]
      exact ⟨_, rfl⟩

/-! ## Clearing -/

theorem deleteLoop_succ (h : cl.toNat < lfatLength) :
    deleteLoop (fuel + 1) cl table =
      let table' := Function.update table cl.toNat 0
      if EndMark (linkOf table cl) then .ok table'
      else deleteLoop fuel (linkOf table cl) table' :=
  next_ok (fun next => deleteLoop fuel next _) (fun _ => .ok _) h

/-- `table` is `lfat` with the entries of `S` cleared. -/
structure Cleared (lfat table : Nat → Word) (S : Set Word) : Prop where
  kept : ∀ c ∉ S, linkOf table c = linkOf lfat c
  gone : ∀ c ∈ S, linkOf table c = 0

variable {S : Set Word}

theorem linkOf_update (table : Nat → Word) (c d : Word) :
    linkOf (Function.update table c.toNat 0) d = if d = c then 0 else linkOf table d := by
  unfold linkOf
  rw [Function.update_apply]
  simp only [BitVec.toNat_inj]

theorem Cleared.update (h : Cleared lfat table S) (c : Word) :
    Cleared lfat (Function.update table c.toNat 0) (insert c S) := by
  constructor <;> intro d hd
  · obtain ⟨hne, hd⟩ := not_or.mp hd
    rw [linkOf_update, if_neg hne]
    exact h.kept d hd
  · rw [linkOf_update]
    split
    · rfl
    · next hne => exact h.gone d (hd.resolve_left hne)

/-- Clearing that ends has cleared the clusters that the links lead to, and no others. Of the
clusters `S` that it has been in the links do not lead out, except to the next one. -/
theorem deleteLoop_spec {table' : Nat → Word} (h : deleteLoop fuel cl table = .ok table')
    (hcleared : Cleared lfat table S) (hinside : ∀ c ∈ S, c.toNat < lfatLength)
    (hlinks : ∀ c ∈ S, ¬EndMark (linkOf lfat c) → linkOf lfat c ∈ insert cl S)
    (hstart : start ∈ insert cl S) (hleads : ∀ c ∈ insert cl S, Leads lfat start c) :
    Cleared lfat table' {d | Leads lfat start d} ∧
      ∀ d, Leads lfat start d → d.toNat < lfatLength := by
  induction fuel generalizing cl table S with
  | zero => cases h
  | succ fuel ih =>
    have hcl : cl.toNat < lfatLength := by
      obtain ⟨r, hr, -⟩ := bind_ok h
      exact lt_of_nextSector hr
    have hinside' : ∀ c ∈ insert cl S, c.toNat < lfatLength := by
      rintro c (rfl | hc)
      · exact hcl
      · exact hinside c hc
    rw [deleteLoop_succ hcl] at h
    dsimp only at h
    split at h
    · next hend =>
      have hclosed : ∀ c ∈ insert cl S, ¬EndMark (linkOf lfat c) →
          linkOf lfat c ∈ insert cl S := by
        rintro c hc hgo
        by_cases hmem : c ∈ S
        · exact hlinks c hmem hgo
        · obtain rfl : c = cl := hc.resolve_right hmem
          rw [hcleared.kept c hmem] at hend
          exact absurd hend hgo
      have hset : insert cl S = {d | Leads lfat start d} :=
        Set.Subset.antisymm hleads fun d hd => hd.mem hstart hclosed
      obtain rfl := Except.ok.inj h
      rw [← hset]
      refine ⟨hcleared.update cl, fun d hd => hinside' d ?_⟩
      rw [hset]
      exact hd
    · next hgo =>
      have hnew : cl ∉ S := fun hc => hgo (Or.inl (hcleared.gone cl hc))
      have hsame := hcleared.kept cl hnew
      have hlead : Leads lfat start (linkOf table cl) := by
        rw [hsame] at hgo ⊢
        exact (hleads cl (Set.mem_insert _ _)).snoc hgo
      apply ih h (hcleared.update cl) hinside'
      · rintro c (rfl | hc) hlink
        · rw [← hsame]
          exact Set.mem_insert _ _
        · exact Set.mem_insert_of_mem _ (hlinks c hc hlink)
      · exact Set.mem_insert_of_mem _ hstart
      · rintro c (rfl | hc)
        · exact hlead
        · exact hleads c hc

/-- There are not more clusters than the table has entries. -/
theorem length_le_of_inside {cs : List Word} (hnodup : cs.Nodup)
    (hinside : ∀ c ∈ cs, c.toNat < lfatLength) : cs.length ≤ lfatLength := by
  have hsub : cs.map BitVec.toNat ⊆ List.range lfatLength := by
    intro a ha
    obtain ⟨c, hc, rfl⟩ := List.mem_map.mp ha
    exact List.mem_range.mpr (hinside c hc)
  have hlength := (List.subperm_of_subset
    (List.Nodup.map (fun _ _ => BitVec.eq_of_toNat_eq) hnodup) hsub).length_le
  rwa [List.length_map, List.length_range] at hlength

/-- Clearing ends where the links stay in the table, also in a cycle: every round that goes on has
met an entry that is not cleared yet. -/
theorem deleteLoop_ends {cleared : List Word}
    (hinside : ∀ d, Leads lfat start d → d.toNat < lfatLength)
    (hcleared : Cleared lfat table {c | c ∈ cleared}) (hnodup : cleared.Nodup)
    (hleads : ∀ c ∈ cl :: cleared, Leads lfat start c)
    (hfuel : lfatLength < cleared.length + fuel) :
    ∃ table', deleteLoop fuel cl table = .ok table' := by
  induction fuel generalizing cl table cleared with
  | zero =>
    have hlength := length_le_of_inside hnodup fun c hc =>
      hinside c (hleads c (List.mem_cons_of_mem cl hc))
    omega
  | succ fuel ih =>
    have hlead := hleads cl List.mem_cons_self
    rw [deleteLoop_succ (hinside cl hlead)]
    dsimp only
    split
    · exact ⟨_, rfl⟩
    · next hgo =>
      have hnew : cl ∉ cleared := fun hc => hgo (Or.inl (hcleared.gone cl hc))
      have hsame := hcleared.kept cl hnew
      refine ih ?_ (List.nodup_cons.mpr ⟨hnew, hnodup⟩) ?_ ?_
      · have hset : {c | c ∈ cl :: cleared} = insert cl {c | c ∈ cleared} := by
          ext c
          exact List.mem_cons
        rw [hset]
        exact hcleared.update cl
      · rw [hsame] at hgo ⊢
        intro c hc
        rcases List.mem_cons.mp hc with rfl | hc
        · exact hlead.snoc hgo
        · exact hleads c hc
      · rw [List.length_cons]
        omega

theorem cleared_nothing (lfat : Nat → Word) : Cleared lfat lfat {c | c ∈ ([] : List Word)} :=
  ⟨fun _ _ => rfl, fun _ hc => absurd hc List.not_mem_nil⟩

/-- `fat12_do_delete_file` clears the clusters that the links lead to, and no others. -/
theorem doDeleteFile_spec (h : doDeleteFile fuel s start = .ok t) :
    Cleared s.lfat t.lfat {d | Leads s.lfat start d} ∧
      (∀ d, Leads s.lfat start d → d.toNat < lfatLength) ∧
      t = { s with lfat := t.lfat, dirty := true } := by
  obtain ⟨table, htable, h⟩ := bind_ok h
  obtain rfl := Except.ok.inj h
  obtain ⟨hcleared, hinside⟩ := deleteLoop_spec htable (cleared_nothing s.lfat)
    (fun c hc => absurd hc List.not_mem_nil) (fun c hc => absurd hc List.not_mem_nil)
    (Set.mem_insert start _) (by
      rintro c (rfl | hc)
      · exact .here
      · exact absurd hc List.not_mem_nil)
  exact ⟨hcleared, hinside, rfl⟩

theorem doDeleteFile_ends (hinside : ∀ d, Leads s.lfat start d → d.toNat < lfatLength)
    (hfuel : lfatLength < fuel) : ∃ t, doDeleteFile fuel s start = .ok t := by
  obtain ⟨table, htable⟩ := deleteLoop_ends hinside (cleared_nothing s.lfat) List.nodup_nil
    (fun c hc => by
      obtain rfl := List.mem_singleton.mp hc
      exact .here) (by rwa [List.length_nil, Nat.zero_add])
  unfold doDeleteFile
  rw [htable, ok_bind]
  exact ⟨_, rfl⟩

theorem check_geometry {sb : SuperBlock} (h : sb.check = true) :
    sb.bytesPerSector = fatSectorSize ∧ sb.rootDirectoryEntries = 224 := by
  unfold SuperBlock.check at h
  simp at h
  exact ⟨h.1.1.1.1.1, h.1.1.2⟩

/-- A driver whose boot sector `fat12_check` accepts. -/
structure Ready extends St where
  checked : super.check = true

/-- The loops of the driver return and stay in the table exactly if all clusters that the links
lead to are in it, and the links lead to an end unless the start is 0. -/
theorem walksInside_iff (p : Places) (v : Ready) (start : Word) :
    WalksInside p v.toSt start ↔ Walkable v.lfat start := by
  constructor
  · rintro ⟨⟨fuel, n, hcount⟩, -, -, fuel', t, hdelete⟩
    refine ⟨(doDeleteFile_spec hdelete).2.1, fun hstart => ?_⟩
    unfold howManyCluster at hcount
    rw [if_neg hstart] at hcount
    obtain ⟨c, hc, -⟩ := bind_ok hcount
    exact (countLoop_spec hc).2
  · intro h
    obtain ⟨fuel, n, hcount⟩ : ∃ fuel n, howManyCluster fuel v.toSt start = .ok n := by
      unfold howManyCluster
      by_cases hstart : start = 0
      · have hbps : ¬v.super.bytesPerSector = 0 := by
          rw [(check_geometry v.checked).1]
          decide
        exact ⟨0, _, (if_pos hstart).trans (if_neg hbps)⟩
      · obtain ⟨d, hd, hmark⟩ := h.ends hstart
        obtain ⟨fuel, n, hn⟩ := countLoop_ends hd hmark h.inside 1
        refine ⟨fuel, n.toNat, ?_⟩
        rw [if_neg hstart, hn, ok_bind]
        rfl
    exact ⟨⟨fuel, n, hcount⟩,
      fun env buf size cnum =>
        ⟨fuel, readClusters_ends hcount (fun _ => h.inside) env buf size cnum⟩,
      fun env buf size cnum =>
        ⟨fuel, writeClusters_ends hcount (fun _ => h.inside) env buf size cnum⟩,
      ⟨_, doDeleteFile_ends h.inside (Nat.lt_succ_self lfatLength)⟩⟩

/-- A volume on which the clusters 2 and 3 are linked to each other. -/
def crossLinked : Ready where
  super := ⟨512, 1, 1, 2, 224, 2880, 0xF0, 9⟩
  fat _ := 0
  lfat j := if j = 2 then 3 else if j = 3 then 2 else 0
  dirty := false
  disk _ := 0
  writes := []
  checked := check_floppy

/-- The clusters are counted without an end. -/
theorem crossLinked_unending : ¬WalksInside ⟨19, 31⟩ crossLinked.toSt 2 := by
  rintro ⟨⟨fuel, n, hcount⟩, -, -, -⟩
  obtain ⟨c, hc, -⟩ := bind_ok hcount
  obtain ⟨d, hd, hmark⟩ := (countLoop_spec hc).2
  have hmem : d ∈ ({2, 3} : Set Word) := by
    apply hd.mem (Or.inl rfl)
    rintro c (rfl | rfl) -
    · exact Or.inr rfl
    · exact Or.inl rfl
  rcases hmem with rfl | rfl
  · exact absurd hmark (by decide)
  · exact absurd hmark (by decide)

end OsdevArchive.Minirighi.Fat12
