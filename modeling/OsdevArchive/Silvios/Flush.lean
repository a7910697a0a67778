import OsdevArchive.Lib.Chained
import OsdevArchive.Silvios.Files
import Mathlib.Data.List.GetD
import Mathlib.Algebra.Group.Nat.Defs

/-!
Writing files. What `fputc` collects in memory goes to a chain of blocks with `fflush`: the
first block has room for 455 bytes behind the header, and each further one for 508.
-/

namespace OsdevArchive.Silvios

open OsdevArchive.Lib.ByteBuffer OsdevArchive.Lib.Chained

variable {disk : Disk} {b c : Block} {d : Buffer} {n p k : Nat}

/-! ### Blocks on the disk -/

theorem writeBlock_same {buffer : Buffer} (hk : k < bytePerSector) :
    (writeBlock disk b buffer).blocks b k = buffer k := by
  change Function.update disk.blocks b _ b k = buffer k
  rw [Function.update_self]
  have hcopy : copy (disk.blocks b) 0 buffer 0 bytePerSector (0 + k) = buffer (0 + k) :=
    copy_inside hk
  rwa [Nat.zero_add] at hcopy

theorem writeBlock_of_ne {buffer : Buffer} (h : c ≠ b) :
    (writeBlock disk b buffer).blocks c = disk.blocks c :=
  Function.update_of_ne h _ _

theorem readBlock_inside {buffer : Buffer} {o : Nat} (hk : k < bytePerSector) :
    readBlock disk b buffer o (o + k) = disk.blocks b k := by
  have hcopy : copy buffer o (disk.blocks b) 0 bytePerSector (o + k) = disk.blocks b (0 + k) :=
    copy_inside hk
  rwa [Nat.zero_add] at hcopy

/-- The header in a block is that of the bytes that were put there. -/
theorem ofBytes_eq {buffer : Buffer} {h : FileHeader}
    (hbytes : ∀ k < sizeofFileHeader, buffer k = h.bytes k) :
    (FileHeader.ofBytes buffer).magicCode = h.magicCode ∧
      (FileHeader.ofBytes buffer).nextBlock = h.nextBlock ∧
      (FileHeader.ofBytes buffer).size = h.size := by
  have hword (o : Nat) (ho : o + 4 ≤ sizeofFileHeader) : word buffer o = word h.bytes o :=
    word_congr fun k hk => hbytes (o + k) (by omega)
  refine ⟨?_, ?_, ?_⟩
  · change buffer 1 ++ buffer 0 = h.magicCode
    rw [hbytes 0 (by decide), hbytes 1 (by decide)]
    unfold FileHeader.bytes putWord
    rw [copy_outside (.inl (by decide)), copy_outside (.inl (by decide)),
      copy_outside (.inl (by decide)), copy_outside (.inl (by decide)), if_pos (by decide),
      if_pos (by decide)]
    apply BitVec.eq_of_getLsbD_eq
    intro i hi
    simp only [BitVec.getLsbD_append, BitVec.getLsbD_extractLsb']
    split
    · simp [*]
    · have hlow : i - 8 < 8 := by omega
      have hsum : 8 + (i - 8) = i := by omega
      simp [hlow, hsum]
  · change word buffer 48 = h.nextBlock
    rw [hword 48 (by decide)]
    unfold FileHeader.bytes
    exact (word_copy_outside (.inl (by decide))).trans (word_putWord _ _ _)
  · change word buffer 52 = h.size
    rw [hword 52 (by decide)]
    exact word_putWord _ _ _

/-! ### Writing -/

/-- An open file to which some bytes were written. -/
structure Written (f : File) (bytes : List Byte) : Prop where
  mode : f.mode = .writeOnly
  magicCode : f.header.magicCode ≠ 0
  size : f.header.size.toNat = bytes.length
  pos : f.pos = bytes.length
  dati : ∀ k < bytes.length, f.dati k = bytes.getD k 0

theorem reallocated_apply {fresh old : Buffer} {size : Nat} (hk : k < size) :
    reallocated fresh old size k = old k := by
  unfold reallocated
  split
  · rfl
  · have hcopy : copy fresh 0 old 0 size (0 + k) = old (0 + k) := copy_inside hk
    rwa [Nat.zero_add] at hcopy

theorem Written.fputc {f : File} {bytes : List Byte} (h : Written f bytes) (fresh : Buffer)
    (c : Byte) (hlen : bytes.length + 1 < 2 ^ 32) :
    Written (fputc fresh c f).2 (bytes ++ [c]) ∧ (fputc fresh c f).2.firstBlock = f.firstBlock := by
  unfold Silvios.fputc
  rw [if_neg h.magicCode, if_pos (.inl h.mode)]
  dsimp only
  -- the file with room for the byte
  obtain ⟨g, hg⟩ : ∃ g, g = if f.szBuf = 0 then
      { f with
        szBuf := 1000
        dati := reallocated fresh f.dati (f.header.size.toNat + 1000) }
    else f := ⟨_, rfl⟩
  have hsame : g.header = f.header ∧ g.mode = f.mode ∧ g.pos = f.pos ∧
      g.firstBlock = f.firstBlock ∧ ∀ k < bytes.length, g.dati k = f.dati k := by
    rw [hg]
    split
    · refine ⟨rfl, rfl, rfl, rfl, fun k hk => ?_⟩
      dsimp only
      rw [reallocated_apply]
      rw [h.size]
      exact Nat.lt_add_right 1000 hk
    · exact ⟨rfl, rfl, rfl, rfl, fun k _ => rfl⟩
  rw [← hg]
  obtain ⟨hheader, hmode, hpos, hfirst, hdati⟩ := hsame
  refine ⟨⟨hmode.trans h.mode, ?_, ?_, ?_, ?_⟩, hfirst⟩
  · rw [hheader]
    exact h.magicCode
  · have hsize := h.size
    rw [hheader, BitVec.toNat_add, hsize, List.length_append]
    exact Nat.mod_eq_of_lt hlen
  · rw [hpos, h.pos, List.length_append]
    rfl
  · intro k hk
    rw [List.length_append, List.length_singleton] at hk
    obtain hlt | rfl := Nat.lt_or_eq_of_le (Nat.le_of_lt_succ hk)
    · have hne : k ≠ g.pos := by rw [hpos, h.pos]; omega
      change Function.update g.dati g.pos c k = _
      rw [Function.update_of_ne hne, hdati k hlt, h.dati k hlt, List.getD_append _ _ _ _ hlt]
    · change Function.update g.dati g.pos c bytes.length = _
      rw [hpos, h.pos, Function.update_self, List.getD_append_right _ _ _ _ (Nat.le_refl _)]
      simp

/-- One `fputc` for each byte. -/
def putAll : (Nat → Buffer) → List Byte → File → File
  | _, [], f => f
  | fresh, c :: cs, f => putAll (fun k => fresh (k + 1)) cs (fputc (fresh 0) c f).2

theorem Written.putAll {f : File} {bytes cs : List Byte} (h : Written f bytes)
    (fresh : Nat → Buffer) (hlen : bytes.length + cs.length < 2 ^ 32) :
    Written (putAll fresh cs f) (bytes ++ cs) ∧
      (putAll fresh cs f).firstBlock = f.firstBlock := by
  induction cs generalizing f bytes fresh with
  | nil =>
    rw [List.append_nil]
    exact ⟨h, rfl⟩
  | cons c cs ih =>
    rw [List.length_cons] at hlen
    obtain ⟨hput, hfirst⟩ := h.fputc (fresh 0) c (by omega)
    obtain ⟨hrest, hsame⟩ := ih hput (fun k => fresh (k + 1))
      (by rw [List.length_append, List.length_singleton]; omega)
    rw [List.append_assoc] at hrest
    exact ⟨hrest, hsame.trans hfirst⟩

/-! ### The chain on the disk -/

/-- From the position `p` on, the data is in a chain of `m + 1` blocks. -/
def StoredFrom (blocks : Block → Buffer) (d : Buffer) (n : Nat) : Nat → Block → Nat → Prop
  | 0, b, p => b ≠ 0 ∧ word (blocks b) 0 = 0 ∧ ∀ k < 508, p + k < n → blocks b (4 + k) = d (p + k)
  | m + 1, b, p => b ≠ 0 ∧ (∀ k < 508, blocks b (4 + k) = d (p + k)) ∧
      StoredFrom blocks d n m (word (blocks b) 0) (p + 508)

theorem StoredFrom.ne_zero {blocks : Block → Buffer} {m : Nat} (h : StoredFrom blocks d n m b p) :
    b ≠ 0 := by
  cases m with
  | zero => exact h.1
  | succ m => exact h.1

/-- A block with a link in front of data. -/
theorem linked_block (disk : Disk) (b : Block) (p : Nat) (buffer dati : Buffer) (v : BitVec 32)
    (len : Nat) :
    word ((writeBlock disk b (copy (putWord buffer 0 v) 4 dati p len)).blocks b) 0 = v ∧
      ∀ k < 508, k < len →
        (writeBlock disk b (copy (putWord buffer 0 v) 4 dati p len)).blocks b (4 + k) =
          dati (p + k) := by
  constructor
  · have hbuffer : word (copy (putWord buffer 0 v) 4 dati p len) 0 = v := by
      rw [word_copy_outside (.inl (by decide)), word_putWord]
    refine Eq.trans (word_congr fun k hk => ?_) hbuffer
    apply writeBlock_same
    unfold bytePerSector
    omega
  · intro k hk hlen
    rw [writeBlock_same (by unfold bytePerSector; omega), copy_inside hlen]

theorem flushLast_stored (hb : b ≠ 0) (buffer : Buffer) (hlt : p + 1 < n) :
    StoredFrom (flushLast d n disk buffer b p (p + 1)).blocks d n 0 b p := by
  obtain ⟨hlink, hdata⟩ := linked_block disk b p buffer d 0 (n - (p + 1) + 1)
  exact ⟨hb, hlink, fun k hk hkn => hdata k hk (by omega)⟩

theorem room_eq : 512 - sizeofUnsignedInt = 508 := rfl

theorem flushBlocks_last {rounds : Nat} (buffer : Buffer) (hle : n ≤ p + 1 + 508) :
    flushBlocks d n rounds disk buffer b p (p + 1) = flushLast d n disk buffer b p (p + 1) := by
  cases rounds with
  | zero => rfl
  | succ rounds =>
    unfold flushBlocks
    rw [room_eq]
    exact if_neg (Nat.not_lt.mpr hle)

theorem flushBlocks_more {rounds : Nat} {buffer : Buffer} {vetCluster : VetCluster}
    (hlt : p + 1 + 508 < n) (hfirst : getFirstFreeBlock disk.vetCluster = (c, vetCluster)) :
    flushBlocks d n (rounds + 1) disk buffer b p (p + 1) =
      flushBlocks d n rounds
        (writeBlock { disk with vetCluster := vetCluster } b
          (copy (putWord buffer 0 c) 4 d p 508))
        (copy (putWord buffer 0 c) 4 d p 508) c (p + 508) (p + 508 + 1) := by
  conv =>
    lhs
    unfold flushBlocks
  rw [room_eq, if_pos hlt, hfirst, Nat.add_right_comm p 508 1]
  rfl

/-- The link to the block behind a block. -/
def nextLink (blocks : Block → Buffer) (b : Block) : Block := word (blocks b) 0

/-- Behind the busy block `b` there are now the blocks `cs`, which were free, and no other busy
block was written. -/
structure Grown (before after : Disk) (b : Block) (cs : List Block) : Prop where
  nodup : (b :: cs).Nodup
  marked : ∀ c ∈ b :: cs, IsBlock c ∧ Busy after.vetCluster c
  new : ∀ c ∈ cs, ¬ Busy before.vetCluster c
  busy : ∀ c, IsBlock c → Busy before.vetCluster c → Busy after.vetCluster c
  untouched : ∀ c, IsBlock c → c ≠ b → Busy before.vetCluster c → after.blocks c = before.blocks c

theorem grown_nil {after : Disk} (hb : IsBlock b) (hbusy : Busy disk.vetCluster b)
    (hvet : after.vetCluster = disk.vetCluster)
    (hsame : ∀ c, c ≠ b → after.blocks c = disk.blocks c) :
    Grown disk after b [] where
  nodup := List.nodup_singleton b
  marked := fun c hc => by
    obtain rfl := List.mem_singleton.mp hc
    exact ⟨hb, hvet ▸ hbusy⟩
  new := fun c hc => absurd hc List.not_mem_nil
  busy := fun c _ hc => hvet ▸ hc
  untouched := fun c _ hne _ => hsame c hne

/-- A block is put in front of one that has just been taken. -/
theorem Grown.cons {next after : Disk} {e : Block} {cs : List Block} (h : Grown next after e cs)
    (hb : IsBlock b) (hbusy : Busy disk.vetCluster b) (hfree : ¬ Busy disk.vetCluster e)
    (hmarks : ∀ c, IsBlock c → (Busy next.vetCluster c ↔ Busy disk.vetCluster c ∨ c = e))
    (hsame : ∀ c, c ≠ b → next.blocks c = disk.blocks c) :
    Grown disk after b (e :: cs) ∧ after.blocks b = next.blocks b := by
  have hbusyAfter (c : Block) (hc : IsBlock c) (hcbusy : Busy disk.vetCluster c) :
      Busy next.vetCluster c := (hmarks c hc).mpr (.inl hcbusy)
  have hother : b ≠ e := fun heq => hfree (heq ▸ hbusy)
  have hnew (c : Block) (hc : c ∈ e :: cs) : ¬ Busy disk.vetCluster c := by
    intro hcbusy
    obtain rfl | hc' := List.mem_cons.mp hc
    · exact hfree hcbusy
    · exact h.new c hc' (hbusyAfter c (h.marked c hc).1 hcbusy)
  refine ⟨⟨List.nodup_cons.mpr ⟨fun hmem => hnew b hmem hbusy, h.nodup⟩, ?_, hnew, ?_, ?_⟩,
    h.untouched b hb hother (hbusyAfter b hb hbusy)⟩
  · intro c hc
    obtain rfl | hc := List.mem_cons.mp hc
    · exact ⟨hb, h.busy c hb (hbusyAfter c hb hbusy)⟩
    · exact h.marked c hc
  · exact fun c hc hcbusy => h.busy c hc (hbusyAfter c hc hcbusy)
  · intro c hc hne hcbusy
    have hce : c ≠ e := fun heq => hfree (heq ▸ hcbusy)
    rw [h.untouched c hc hce (hbusyAfter c hc hcbusy), hsame c hne]

/-- The loop of `fflush` takes `m` blocks, and stores the data in a chain. -/
theorem flushBlocks_stored (m : Nat) {rounds : Nat} {buffer : Buffer} (hb : IsBlock b)
    (hbusy : Busy disk.vetCluster b) (hlt : p + 1 + 508 * m < n)
    (hle : n ≤ p + 1 + 508 * (m + 1)) (hrounds : m ≤ rounds)
    (hroom : m ≤ freeNumber disk.vetCluster) :
    ∃ after cs, flushBlocks d n rounds disk buffer b p (p + 1) = after ∧
      StoredFrom after.blocks d n m b p ∧
      Chain (nextLink after.blocks) (· = 0) (nextLink after.blocks b) cs ∧
      Grown disk after b cs := by
  have hne := hb.ne_zero
  induction m generalizing rounds disk buffer b p with
  | zero =>
    have hstored := @flushLast_stored disk b d n p hne buffer (by omega)
    refine ⟨_, [], flushBlocks_last buffer (by omega), hstored, .nil hstored.2.1,
      grown_nil hb hbusy rfl fun c hc => writeBlock_of_ne hc⟩
  | succ m ih =>
    obtain ⟨rounds, rfl⟩ : ∃ r, rounds = r + 1 := ⟨rounds - 1, by omega⟩
    rw [Nat.mul_succ, ← Nat.add_assoc] at hlt
    rw [Nat.mul_succ, Nat.mul_succ, ← Nat.add_assoc, ← Nat.add_assoc] at hle
    have hmore : p + 1 + 508 < n := by omega
    have hlt' : p + 508 + 1 + 508 * m < n := by omega
    have hle' : n ≤ p + 508 + 1 + 508 * (m + 1) := by
      rw [Nat.mul_succ, ← Nat.add_assoc]
      omega
    obtain ⟨e, vet, hfirst, he, hfree, hmarks, hcard⟩ :=
      takes_next (Nat.lt_of_lt_of_le (Nat.succ_pos m) hroom)
    rw [← hcard] at hroom
    rw [flushBlocks_more hmore hfirst]
    obtain ⟨next, hnext⟩ : ∃ w, w = writeBlock { disk with vetCluster := vet } b
        (copy (putWord buffer 0 e) 4 d p 508) := ⟨_, rfl⟩
    have hnextVet : next.vetCluster = vet := by rw [hnext]; rfl
    have hsame (c : Block) (hc : c ≠ b) : next.blocks c = disk.blocks c := by
      rw [hnext]
      exact writeBlock_of_ne hc
    rw [← hnextVet] at hmarks hroom
    obtain ⟨hlink, hdata⟩ := linked_block { disk with vetCluster := vet } b p buffer d e 508
    rw [← hnext] at hlink hdata ⊢
    obtain ⟨after, cs, hrun, hstored, hchain, hgrown⟩ := @ih next e (p + 508) rounds
      (copy (putWord buffer 0 e) 4 d p 508) he ((hmarks e he).mpr (.inr rfl)) hlt' hle'
      (Nat.le_of_succ_le_succ hrounds) (Nat.le_of_succ_le_succ hroom) he.ne_zero
    obtain ⟨hall, hkept⟩ := hgrown.cons hb hbusy hfree hmarks hsame
    rw [← hkept] at hlink hdata
    refine ⟨after, e :: cs, hrun, ⟨hne, fun k hk => hdata k hk hk, ?_⟩, ?_, hall⟩
    · rw [hlink]
      exact hstored
    · unfold nextLink at hchain ⊢
      rw [hlink]
      exact .cons he.ne_zero hchain

/-- The number of blocks behind the first one that `n` bytes take. -/
def blocksBehind (n : Nat) : Nat := if n ≤ 456 then 0 else 1 + (n - 457) / 508

/-- The link from the header in the first block of a file. -/
def headLink (blocks : Block → Buffer) (b : Block) : Block :=
  (FileHeader.ofBytes (blocks b)).nextBlock

/-- A file of `n` bytes on the disk, as far as its first block has room for them. -/
structure Stored (blocks : Block → Buffer) (b : Block) (d : Buffer) (n : Nat) (h : FileHeader) :
    Prop where
  header : ∀ k < sizeofFileHeader, blocks b k = h.bytes k
  size : h.size.toNat = n
  first : ∀ k < 455, k < n → blocks b (57 + k) = d k
  chain : 456 < n → StoredFrom blocks d n ((n - 457) / 508) h.nextBlock 455

theorem Stored.headLink_eq {blocks : Block → Buffer} {h : FileHeader} (k : Stored blocks b d n h) :
    headLink blocks b = h.nextBlock :=
  (ofBytes_eq k.header).2.1

/-- The first block of a file: the header, and data behind it. -/
theorem first_block (disk : Disk) (b : Block) (h : FileHeader) (buffer dati : Buffer)
    (len : Nat) :
    (∀ k < sizeofFileHeader, (writeBlock disk b (copy (copy buffer 0 h.bytes 0 sizeofFileHeader)
        (sizeofFileHeader + 1) dati 0 len)).blocks b k = h.bytes k) ∧
      ∀ k < 455, k < len → (writeBlock disk b (copy (copy buffer 0 h.bytes 0 sizeofFileHeader)
        (sizeofFileHeader + 1) dati 0 len)).blocks b (57 + k) = dati k := by
  constructor
  · intro k hk
    have hsector : k < bytePerSector := Nat.lt_trans hk (by decide)
    have hin : copy buffer 0 h.bytes 0 sizeofFileHeader (0 + k) = h.bytes (0 + k) :=
      copy_inside hk
    rw [writeBlock_same hsector, copy_outside (.inl (Nat.lt_succ_of_lt hk))]
    rwa [Nat.zero_add] at hin
  · intro k hk hlen
    have hsector : 57 + k < bytePerSector := by
      unfold bytePerSector
      omega
    have hin : copy (copy buffer 0 h.bytes 0 sizeofFileHeader) 57 dati 0 len (57 + k) =
        dati (0 + k) := copy_inside hlen
    rw [writeBlock_same hsector]
    rwa [Nat.zero_add] at hin

/-- A file of at most 456 bytes is stored in its first block. -/
theorem fflush_small {f : File} (buffer : Buffer) (hb : IsBlock f.firstBlock)
    (hbusy : Busy disk.vetCluster f.firstBlock) (hle : f.header.size.toNat ≤ 456) :
    ∃ after header, (fflush disk f buffer).2 = after ∧
      header.magicCode = f.header.magicCode ∧
      Stored after.blocks f.firstBlock f.dati f.header.size.toNat header ∧
      headLink after.blocks f.firstBlock = 0 ∧ Grown disk after f.firstBlock [] := by
  obtain ⟨n, hn⟩ : ∃ n, n = f.header.size.toNat := ⟨_, rfl⟩
  unfold fflush
  rw [← hn] at hle ⊢
  dsimp only
  rw [if_pos (show n ≤ 512 - sizeofFileHeader from hle)]
  obtain ⟨header, hheader⟩ : ∃ h : FileHeader, h = { f.header with nextBlock := 0 } := ⟨_, rfl⟩
  obtain ⟨hbytes, hdata⟩ := first_block disk f.firstBlock header buffer f.dati (n + 1)
  obtain ⟨after, hafter⟩ : ∃ w, w = writeBlock disk f.firstBlock (copy (copy buffer 0
      header.bytes 0 sizeofFileHeader) (sizeofFileHeader + 1) f.dati 0 (n + 1)) := ⟨_, rfl⟩
  rw [← hafter] at hbytes hdata
  have hfile : Stored after.blocks f.firstBlock f.dati n header := by
    refine ⟨hbytes, ?_, fun k hk hkn => hdata k hk (Nat.lt_succ_of_lt hkn),
      fun hlt => absurd hle (Nat.not_le.mpr hlt)⟩
    rw [hheader]
    exact hn.symm
  refine ⟨after, header, ?_, ?_, hfile, ?_, grown_nil hb hbusy ?_ fun c hc => ?_⟩
  · rw [hafter, hheader]
  · rw [hheader]
  · rw [hfile.headLink_eq, hheader]
  · rw [hafter]
    rfl
  · rw [hafter]
    exact writeBlock_of_ne hc

/-- A longer file is stored in its first block and a chain of blocks that were free. -/
theorem fflush_large {f : File} (buffer : Buffer) (hb : IsBlock f.firstBlock)
    (hbusy : Busy disk.vetCluster f.firstBlock)
    (hroom : blocksBehind f.header.size.toNat ≤ freeNumber disk.vetCluster)
    (hlt : 456 < f.header.size.toNat) :
    ∃ after header cs, (fflush disk f buffer).2 = after ∧
      header.magicCode = f.header.magicCode ∧
      Stored after.blocks f.firstBlock f.dati f.header.size.toNat header ∧
      Chain (nextLink after.blocks) (· = 0) (headLink after.blocks f.firstBlock) cs ∧
      Grown disk after f.firstBlock cs := by
  obtain ⟨n, hn⟩ : ∃ n, n = f.header.size.toNat := ⟨_, rfl⟩
  unfold fflush
  rw [← hn] at hroom hlt ⊢
  dsimp only
  rw [if_neg (show ¬ n ≤ 512 - sizeofFileHeader from Nat.not_le.mpr hlt)]
  obtain ⟨m, hm⟩ : ∃ m, m = (n - 457) / 508 := ⟨_, rfl⟩
  unfold blocksBehind at hroom
  rw [if_neg (Nat.not_le.mpr hlt), ← hm, Nat.add_comm] at hroom
  obtain ⟨e, vet, hfirst, he, hfree, hmarks, hcard⟩ :=
    takes_next (Nat.lt_of_lt_of_le (Nat.succ_pos m) hroom)
  rw [← hcard] at hroom
  rw [hfirst]
  dsimp only
  obtain ⟨header, hheader⟩ : ∃ h : FileHeader, h = { f.header with nextBlock := e } := ⟨_, rfl⟩
  obtain ⟨first, hfirstBuffer⟩ : ∃ w, w = copy (copy buffer 0 header.bytes 0 sizeofFileHeader)
      (sizeofFileHeader + 1) f.dati 0 455 := ⟨_, rfl⟩
  obtain ⟨next, hnext⟩ : ∃ w, w = writeBlock { disk with vetCluster := vet } f.firstBlock
      first := ⟨_, rfl⟩
  obtain ⟨hbytes, hdata⟩ := first_block { disk with vetCluster := vet } f.firstBlock header
    buffer f.dati 455
  rw [← hfirstBuffer, ← hnext] at hbytes hdata
  have hnextVet : next.vetCluster = vet := by rw [hnext]; rfl
  have hsame (c : Block) (hc : c ≠ f.firstBlock) : next.blocks c = disk.blocks c := by
    rw [hnext]
    exact writeBlock_of_ne hc
  rw [← hnextVet] at hmarks hroom
  have hlow : 455 + 1 + 508 * m < n := by omega
  have hhigh : n ≤ 455 + 1 + 508 * (m + 1) := by
    rw [Nat.mul_succ, ← Nat.add_assoc]
    omega
  have hrounds : m ≤ n := by omega
  obtain ⟨after, cs, hrun, hstored, hchain, hgrown⟩ := @flushBlocks_stored next e f.dati n 455 m n
    first he ((hmarks e he).mpr (.inr rfl)) hlow hhigh hrounds (Nat.le_of_succ_le_succ hroom)
  obtain ⟨hall, hkept⟩ := hgrown.cons hb hbusy hfree hmarks hsame
  rw [← hkept] at hbytes hdata
  have hfile : Stored after.blocks f.firstBlock f.dati n header := by
    refine ⟨hbytes, ?_, fun k hk _ => hdata k hk hk, fun _ => ?_⟩
    · rw [hheader]
      exact hn.symm
    · rw [← hm, hheader]
      exact hstored
  refine ⟨after, header, e :: cs, ?_, ?_, hfile, ?_, hall⟩
  · rw [← hrun, hnext, hfirstBuffer, hheader]
    rfl
  · rw [hheader]
  · rw [hfile.headLink_eq, hheader]
    exact .cons he.ne_zero hchain

/-- `fflush` stores the file in its first block, and in a chain of blocks that were free. -/
theorem fflush_stored {f : File} (buffer : Buffer) (hb : IsBlock f.firstBlock)
    (hbusy : Busy disk.vetCluster f.firstBlock)
    (hroom : blocksBehind f.header.size.toNat ≤ freeNumber disk.vetCluster) :
    ∃ after header cs, (fflush disk f buffer).2 = after ∧
      header.magicCode = f.header.magicCode ∧
      Stored after.blocks f.firstBlock f.dati f.header.size.toNat header ∧
      Chain (nextLink after.blocks) (· = 0) (headLink after.blocks f.firstBlock) cs ∧
      Grown disk after f.firstBlock cs := by
  rcases Nat.lt_or_ge 456 f.header.size.toNat with hlt | hle
  · exact fflush_large buffer hb hbusy hroom hlt
  · obtain ⟨after, header, hflush, hmagic, hstored, hlink, hgrown⟩ :=
      fflush_small buffer hb hbusy hle
    exact ⟨after, header, [], hflush, hmagic, hstored, .nil hlink, hgrown⟩

end OsdevArchive.Silvios
