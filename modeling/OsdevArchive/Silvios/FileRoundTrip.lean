import OsdevArchive.Silvios.Flush

/-!
A file that is written byte by byte, flushed and read again. Writer and reader do not agree on
the room of a block at the lengths where one is just full.
-/

namespace OsdevArchive.Silvios

open OsdevArchive.Lib.ByteBuffer

variable {disk : Disk} {dir : Directory} {name : Name} {b : Block} {d : Buffer} {n p k : Nat}

/-! ### Reading -/

/-- The data of a block in the buffer of the reader, which starts at the offset 2. -/
theorem reader_buffer (blocks : Block → Buffer) (b : Block) (buffer : Buffer) :
    word (copy buffer 2 (blocks b) 0 bytePerSector) 2 = word (blocks b) 0 ∧
      (∀ k < 508, copy buffer 2 (blocks b) 0 bytePerSector (6 + k) = blocks b (4 + k)) ∧
      copy buffer 2 (blocks b) 0 bytePerSector 514 = buffer 514 := by
  refine ⟨?_, fun k hk => ?_, copy_outside (.inr (by decide))⟩
  · have hword : word (copy buffer 2 (blocks b) 0 bytePerSector) (2 + 0) =
        word (blocks b) (0 + 0) := word_copy (by decide)
    exact hword
  · have hlt : 4 + k < bytePerSector := by
      unfold bytePerSector
      omega
    have hin : copy buffer 2 (blocks b) 0 bytePerSector (2 + (4 + k)) = blocks b (0 + (4 + k)) :=
      copy_inside hlt
    rw [Nat.zero_add, ← Nat.add_assoc] at hin
    exact hin

theorem reader_room_eq : bytePerSector - sizeofUnsignedInt = 508 := rfl

/-- The reader goes along the chain, and gets what fits into its blocks; the last byte of a
block that is overfull comes from behind the buffer. -/
theorem readChain_reads {blocks : Block → Buffer} (m : Nat) {steps : Nat}
    {vetCluster : VetCluster} {buffer dati : Buffer} (h : StoredFrom blocks d n m b p)
    (hn : n < 2 ^ 32) (hlt : p + 1 + 508 * m < n) (hle : n ≤ p + 1 + 508 * m + 508)
    (hsteps : m + 2 ≤ steps) (hdati : ∀ k < p, dati k = d k) :
    ∃ dati' vetCluster', readChain blocks (BitVec.ofNat 32 n) steps vetCluster buffer dati p b =
        some (dati', vetCluster') ∧
      (∀ k < n, k < p + 508 * m + 508 → dati' k = d k) ∧
      (n = p + 1 + 508 * m + 508 → dati' (n - 1) = buffer 514) := by
  induction m generalizing steps vetCluster buffer dati b p with
  | zero =>
    obtain ⟨hne, hlink, hdata⟩ := h
    obtain ⟨steps, rfl⟩ : ∃ r, steps = r + 1 + 1 := ⟨steps - 2, by omega⟩
    obtain ⟨hword, hin, hbehind⟩ := reader_buffer blocks b buffer
    have hp : p < 2 ^ 32 := by omega
    have hlen : (BitVec.ofNat 32 n - BitVec.ofNat 32 p).toNat = n - p := by
      rw [BitVec.toNat_sub, BitVec.toNat_ofNat, BitVec.toNat_ofNat, Nat.mod_eq_of_lt hn,
        Nat.mod_eq_of_lt hp]
      omega
    unfold readChain
    rw [if_neg hne]
    dsimp only
    rw [hword, hlink, if_neg (by simp), hlen]
    have hmin : min 508 (n - p) ≤ n - p := Nat.min_le_right _ _
    refine ⟨_, _, if_pos rfl, fun k hk hroom => ?_, fun hfull => ?_⟩
    · refine copy_agrees hmin hdati (fun l hl => ?_) k (by omega)
      rw [hin l (by omega)]
      exact hdata l (by omega) (by omega)
    · have hlast : n - 1 = p + 508 := by omega
      rw [hlast, copy_inside (by omega)]
      exact hbehind
  | succ m ih =>
    obtain ⟨hne, hdata, hrest⟩ := h
    obtain ⟨steps, rfl⟩ : ∃ r, steps = r + 1 := ⟨steps - 1, by omega⟩
    obtain ⟨hword, hin, hbehind⟩ := reader_buffer blocks b buffer
    rw [Nat.mul_succ, ← Nat.add_assoc] at hlt hle
    have hlt' : p + 508 + 1 + 508 * m < n := by omega
    have hle' : n ≤ p + 508 + 1 + 508 * m + 508 := by omega
    have hmore : ∀ k < p + 508,
        copy dati p (copy buffer 2 (blocks b) 0 bytePerSector) 6 (508 + 1) k = d k :=
      copy_agrees (Nat.le_succ 508) hdati fun l hl => by
        rw [hin l (by omega)]
        exact hdata l hl
    obtain ⟨dati', vet', hread, hall, hlast⟩ := @ih (word (blocks b) 0) (p + 508) steps
      (freeBlock vetCluster b) (copy buffer 2 (blocks b) 0 bytePerSector)
      (copy dati p (copy buffer 2 (blocks b) 0 bytePerSector) 6 (508 + 1)) hrest hlt' hle'
      (Nat.le_of_succ_le_succ hsteps) hmore
    refine ⟨dati', vet', ?_, fun k hk hroom => hall k hk ?_, fun hfull => ?_⟩
    · unfold readChain
      rw [if_neg hne]
      dsimp only
      rw [hword, if_pos hrest.ne_zero, reader_room_eq]
      exact hread
    · rw [Nat.mul_succ] at hroom
      omega
    · rw [← hbehind]
      apply hlast
      rw [Nat.mul_succ] at hfull
      omega

/-- Characters until `EOF`. -/
def getAll : Nat → File → List Byte
  | 0, _ => []
  | steps + 1, f =>
    match fgetc f with
    | (some c, f) => c :: getAll steps f
    | (none, _) => []

theorem getAll_eq {f : File} {steps : Nat} (hmode : f.mode = .readOnly)
    (hmagic : f.header.magicCode ≠ 0) (hpos : f.pos ≤ f.header.size.toNat)
    (hsteps : f.header.size.toNat - f.pos < steps) :
    getAll steps f = (List.range' f.pos (f.header.size.toNat - f.pos)).map f.dati := by
  induction steps generalizing f with
  | zero => exact absurd hsteps (Nat.not_lt_zero _)
  | succ steps ih =>
    obtain hlt | hend := Nat.lt_or_eq_of_le hpos
    · have hget : fgetc f = (some (f.dati f.pos), { f with pos := f.pos + 1 }) := by
        unfold fgetc
        rw [if_neg hmagic, if_pos hmode, if_pos hlt]
      obtain ⟨l, hl⟩ : ∃ l, f.header.size.toNat - f.pos = l + 1 :=
        ⟨f.header.size.toNat - f.pos - 1, by omega⟩
      have hl' : f.header.size.toNat - (f.pos + 1) = l := by omega
      have hrest := @ih { f with pos := f.pos + 1 } hmode hmagic hlt (by dsimp only; omega)
      unfold getAll
      rw [hget, hl, List.range'_succ, List.map_cons]
      dsimp only at hrest ⊢
      rw [hrest, hl']
    · have hget : fgetc f = (none, f) := by
        unfold fgetc
        rw [if_neg hmagic, if_pos hmode, if_neg (by omega)]
      unfold getAll
      rw [hget, hend, Nat.sub_self]
      rfl

/-! ### Opening -/

theorem eraseP_absent {es : List Entry} (h : (es.map Entry.name).Nodup) :
    ∀ e ∈ es.eraseP fun e => e.name = name, e.name ≠ name := by
  induction es with
  | nil => exact fun e he => absurd he List.not_mem_nil
  | cons a as ih =>
    rw [List.map_cons] at h
    obtain ⟨hnew, has⟩ := List.nodup_cons.mp h
    by_cases ha : a.name = name
    · rw [List.eraseP_cons_of_pos (by simpa using ha)]
      rintro e he rfl
      exact hnew (ha ▸ List.mem_map_of_mem he)
    · rw [List.eraseP_cons_of_neg (by simpa using ha)]
      rintro e (_ | ⟨_, he⟩)
      · exact ha
      · exact ih has e he

/-- The operations on a file of `n` bytes succeed. -/
structure Fits (disk : Disk) (dir : Directory) (name : Name) (n : Nat) : Prop where
  small : dir.header.size.toNat ≤ 512
  other : dir.self.name ≠ name
  unique : (dir.entries.map Entry.name).Nodup
  blocks : ∀ e ∈ dir.entries, e.firstBlock ≠ 0
  room : ∃ dir' disk', rmFile disk dir name = some (dir', disk') ∧
    1 + blocksBehind n ≤ freeNumber disk'.vetCluster

theorem Fits.rmFile_absent (h : Fits disk dir name n) {dir' : Directory} {disk' : Disk}
    (hrm : rmFile disk dir name = some (dir', disk')) :
    dir'.self = dir.self ∧ dir'.header = dir.header ∧ ∀ e ∈ dir'.entries, e.name ≠ name := by
  have hfind : (dir.self :: dir.entries).find? (fun e => decide (e.name = name)) =
      dir.entries.find? fun e => decide (e.name = name) :=
    List.find?_cons_of_neg (by simpa using h.other)
  unfold rmFile at hrm
  split at hrm
  · rename_i hsearch
    obtain ⟨rfl, -⟩ := Prod.mk.inj (Option.some.inj hrm)
    refine ⟨rfl, rfl, fun e he hname => ?_⟩
    unfold searchFilename Directory.elem at hsearch
    rw [hfind] at hsearch
    split at hsearch
    · rename_i e' hfound
      exact h.blocks e' (List.mem_of_find?_eq_some hfound) hsearch
    · rename_i hnone
      have hne := List.find?_eq_none.mp hnone e he
      exact hne (decide_eq_true hname)
  · rename_i hsearch
    split at hrm
    · rename_i hnone
      unfold searchFilename at hsearch
      rw [hnone] at hsearch
      exact absurd rfl hsearch
    · rename_i car hfound
      split at hrm
      · rename_i hcar
        have hname : car.name = name := by simpa using List.find?_some hfound
        exact absurd (hcar.symm.trans hname) h.other
      · obtain ⟨disk'', -, heq⟩ := Option.bind_eq_some_iff.mp hrm
        obtain ⟨rfl, -⟩ := Prod.mk.inj (Option.some.inj heq)
        exact ⟨rfl, rfl, eraseP_absent h.unique⟩

/-- The file that `fopen(name, "w")` gives is empty, and has a block of its own. -/
theorem Fits.fopen_write (h : Fits disk dir name n) (j : Unset) :
    ∃ f dir' disk', fopen j disk name dir .writeOnly = some (some f, dir', disk') ∧
      Written f [] ∧ IsBlock f.firstBlock ∧ Busy disk'.vetCluster f.firstBlock ∧
      searchFilename name dir'.elem = f.firstBlock ∧
      blocksBehind n ≤ freeNumber disk'.vetCluster := by
  obtain ⟨dir', disk', hrm, hroom⟩ := h.room
  obtain ⟨hself, hheader, habsent⟩ := h.rmFile_absent hrm
  obtain ⟨b, vet, hfirst, hb, hfree, hmarks, hcard⟩ :=
    takes_next (Nat.lt_of_lt_of_le (by rw [Nat.add_comm]; exact Nat.succ_pos _) hroom)
  have hcreate : create j disk' dir' name sconosciuto =
      (addEntryToTree name dir' sconosciuto b, writeBlock { disk' with vetCluster := vet } b
        (copy j.created 0 (fillHeader sconosciuto j.other).bytes 0 sizeofFileHeader)) := by
    unfold create
    rw [hfirst]
    exact if_pos (hheader ▸ h.small)
  have hsearch : searchFilename name (addEntryToTree name dir' sconosciuto b).elem = b := by
    unfold searchFilename addEntryToTree Directory.elem
    rw [List.find?_cons_of_neg (by rw [hself]; simpa using h.other), List.find?_append,
      List.find?_eq_none.mpr fun e he => by simpa using habsent e he]
    simp
  obtain ⟨disk2, hdisk2⟩ : ∃ w, w = writeBlock { disk' with vetCluster := vet } b
      (copy j.created 0 (fillHeader sconosciuto j.other).bytes 0 sizeofFileHeader) := ⟨_, rfl⟩
  have hvet : disk2.vetCluster = vet := by rw [hdisk2]; rfl
  rw [← hdisk2] at hcreate
  have hopen : fopen j disk name dir .writeOnly =
      some (some ⟨FileHeader.ofBytes (readBlock disk2 b j.buffer 0), j.dati, b, .writeOnly, 0,
        1000⟩, addEntryToTree name dir' sconosciuto b, disk2) := by
    unfold fopen
    rw [if_pos rfl, hrm]
    simp only [Option.bind_eq_bind, Option.bind_some, hcreate, hsearch]
    exact if_neg hb.ne_zero
  -- the header is read back from the new block
  obtain ⟨hmagic, -, hsize⟩ := @ofBytes_eq (readBlock disk2 b j.buffer 0)
    (fillHeader sconosciuto j.other) fun k hk => by
      have hsector : k < bytePerSector := Nat.lt_trans hk (by decide)
      have hread : readBlock disk2 b j.buffer 0 (0 + k) = disk2.blocks b k :=
        readBlock_inside hsector
      have hin : copy j.created 0 (fillHeader sconosciuto j.other).bytes 0 sizeofFileHeader
          (0 + k) = (fillHeader sconosciuto j.other).bytes (0 + k) := copy_inside hk
      rw [Nat.zero_add] at hread hin
      rw [hread, hdisk2, writeBlock_same hsector, hin]
  refine ⟨_, _, _, hopen, ⟨rfl, ?_, ?_, rfl, ?_⟩, hb, ?_, hsearch, ?_⟩
  · rw [hmagic]
    change sconosciuto.setWidth 16 ≠ 0
    decide
  · rw [hsize]
    rfl
  · exact fun k hk => absurd hk (Nat.not_lt_zero k)
  · rw [hvet]
    exact (hmarks b hb).mpr (.inr rfl)
  · rw [hvet]
    rw [← hcard, Nat.add_comm] at hroom
    exact Nat.le_of_succ_le_succ hroom

/-- The lengths at which every byte has a place that both writer and reader know. -/
def LengthOk (n : Nat) : Prop := n ≤ 455 ∨ 512 ≤ n ∧ (n - 456) % 508 ≠ 0

instance instDecidableLengthOk (n : Nat) : Decidable (LengthOk n) :=
  inferInstanceAs (Decidable (_ ∨ _))

/-- The byte that is lost at the other lengths. -/
def lostPlace (n : Nat) : Nat := if n < 512 then 455 else n - 1

/-- Where the reader takes it from, behind its buffer. -/
def lostFrom (n : Nat) : Nat := if n < 512 then 512 else 514

theorem lostFrom_ge (n : Nat) : 512 ≤ lostFrom n := by
  unfold lostFrom
  split <;> omega

/-- A file of less than 512 bytes is taken from its first block. -/
theorem readOnlyOpen_short (disk : Disk) {f : File} {buffer : Buffer} (dati : Buffer)
    (hsize : f.header.size.toNat = n) (hsmall : n < 512)
    (hfirst : ∀ k < 455, k < n → buffer (57 + k) = d k) :
    ∃ dati', readOnlyOpen disk f buffer dati = some ({ f with dati := dati', pos := 0 }, disk) ∧
      (LengthOk n → ∀ k < n, dati' k = d k) ∧
      (¬ LengthOk n → dati' (lostPlace n) = buffer (lostFrom n)) := by
  have hne (h : 0 < n) : f.header.size ≠ 0 := by
    intro hzero
    rw [hzero] at hsize
    exact Nat.ne_of_gt h hsize.symm
  unfold readOnlyOpen
  dsimp only
  rw [hsize, if_pos hsmall]
  refine ⟨_, rfl, fun hok k hk => ?_, fun hlost => ?_⟩
  · have hle : n ≤ 455 := by
      unfold LengthOk at hok
      omega
    have hcopy : copy dati 0 buffer 57 (n + 1) (0 + k) = buffer (57 + k) :=
      copy_inside (Nat.lt_succ_of_lt hk)
    rw [if_pos (hne (by omega))]
    rw [Nat.zero_add] at hcopy
    exact hcopy.trans (hfirst k (by omega) hk)
  · have hlow : 455 < n := by
      unfold LengthOk at hlost
      omega
    have hcopy : copy dati 0 buffer 57 (n + 1) (0 + 455) = buffer (57 + 455) :=
      copy_inside (by omega)
    unfold lostPlace lostFrom
    rw [if_pos hsmall, if_pos hsmall, if_pos (hne (by omega))]
    exact hcopy

/-- A longer file is taken from its chain of blocks. -/
theorem readOnlyOpen_long {f : File} {buffer : Buffer} (dati : Buffer)
    (hsize : f.header.size.toNat = n) (hlarge : 512 ≤ n) (hn : n < 2 ^ 32)
    (hfirst : ∀ k < 455, k < n → buffer (57 + k) = d k)
    (hchain : StoredFrom disk.blocks d n ((n - 457) / 508) f.header.nextBlock 455) :
    ∃ dati' disk', readOnlyOpen disk f buffer dati =
        some ({ f with dati := dati', pos := 0 }, disk') ∧
      (LengthOk n → ∀ k < n, dati' k = d k) ∧
      (¬ LengthOk n → dati' (lostPlace n) = buffer (lostFrom n)) := by
  obtain ⟨m, hm⟩ : ∃ m, m = (n - 457) / 508 := ⟨_, rfl⟩
  rw [← hm] at hchain
  have hofNat : f.header.size = BitVec.ofNat 32 n := by
    rw [← hsize, BitVec.ofNat_toNat, BitVec.setWidth_eq]
  have hdati : ∀ k < 455, copy dati 0 buffer 57 455 k = d k := by
    intro k hk
    have hcopy : copy dati 0 buffer 57 455 (0 + k) = buffer (57 + k) := copy_inside hk
    rw [Nat.zero_add] at hcopy
    exact hcopy.trans (hfirst k hk (by omega))
  have hsteps : m + 2 ≤ walkBound := by
    unfold walkBound
    omega
  obtain ⟨dati', vet, hread, hall, hlast⟩ := @readChain_reads _ d n 455 disk.blocks m walkBound
    disk.vetCluster buffer _ hchain hn (by omega) (by omega) hsteps hdati
  have hrun : readChain disk.blocks f.header.size walkBound disk.vetCluster buffer
      (copy dati 0 buffer (sizeofFileHeader + 1) (512 - sizeofFileHeader - 1))
      (512 - sizeofFileHeader - 1) f.header.nextBlock = some (dati', vet) := by
    rw [hofNat]
    exact hread
  have hnot : ¬ n < 512 := Nat.not_lt.mpr hlarge
  unfold readOnlyOpen
  dsimp only
  rw [hsize, if_neg hnot, hrun]
  refine ⟨dati', _, rfl, fun hok k hk => ?_, fun hlost => ?_⟩
  · apply hall k hk
    unfold LengthOk at hok
    omega
  · unfold lostPlace lostFrom
    rw [if_neg hnot, if_neg hnot]
    unfold LengthOk at hlost
    exact hlast (by omega)

theorem fopen_read {h : FileHeader} (j : Unset) (hsearch : searchFilename name dir.elem = b)
    (hb : b ≠ 0) (hstored : Stored disk.blocks b d n h) (hcode : h.magicCode ≠ 0)
    (hn : n < 2 ^ 32) :
    ∃ f disk', fopen j disk name dir .readOnly = some (some f, dir, disk') ∧
      f.mode = .readOnly ∧ f.header.magicCode ≠ 0 ∧ f.header.size.toNat = n ∧ f.pos = 0 ∧
      (LengthOk n → ∀ k < n, f.dati k = d k) ∧
      (¬ LengthOk n → f.dati (lostPlace n) = j.buffer (lostFrom n)) := by
  obtain ⟨buffer, hbuffer⟩ : ∃ w, w = readBlock disk b j.buffer 0 := ⟨_, rfl⟩
  have hin (k : Nat) (hk : k < bytePerSector) : buffer k = disk.blocks b k := by
    have hread : readBlock disk b j.buffer 0 (0 + k) = disk.blocks b k := readBlock_inside hk
    rwa [Nat.zero_add, ← hbuffer] at hread
  have hbehind (k : Nat) (hk : bytePerSector ≤ k) : buffer k = j.buffer k := by
    rw [hbuffer]
    exact copy_outside (.inr (by omega))
  have hfirst (k : Nat) (hk : k < 455) (hkn : k < n) : buffer (57 + k) = d k := by
    rw [hin (57 + k) (by unfold bytePerSector; omega)]
    exact hstored.first k hk hkn
  obtain ⟨hmagic, hnext, hsize⟩ := @ofBytes_eq buffer h fun k hk => by
    rw [hin k (Nat.lt_trans hk (by decide)), hstored.header k hk]
  have htoNat := hstored.size
  rw [← hsize] at htoNat
  rw [← hmagic] at hcode
  obtain ⟨f0, hf0⟩ : ∃ f : File, f = ⟨FileHeader.ofBytes buffer, j.dati, b, .readOnly, 0, 1000⟩ :=
    ⟨_, rfl⟩
  have hopen : fopen j disk name dir .readOnly =
      (readOnlyOpen disk f0 buffer j.dati).bind fun r => some (some r.1, dir, r.2) := by
    unfold fopen
    rw [if_neg (by decide)]
    simp only [Option.bind_eq_bind, Option.bind_some, hsearch]
    rw [← hbuffer, ← hf0]
    exact if_neg hb
  have hsize0 : f0.header.size.toNat = n := by rw [hf0]; exact htoNat
  have hmagic0 : f0.header.magicCode ≠ 0 := by rw [hf0]; exact hcode
  have hmode0 : f0.mode = .readOnly := by rw [hf0]
  have hnext0 : f0.header.nextBlock = h.nextBlock := by rw [hf0]; exact hnext
  obtain ⟨dati', disk', hread, hall, hlost⟩ : ∃ dati' disk', readOnlyOpen disk f0 buffer j.dati =
      some ({ f0 with dati := dati', pos := 0 }, disk') ∧
        (LengthOk n → ∀ k < n, dati' k = d k) ∧
        (¬ LengthOk n → dati' (lostPlace n) = buffer (lostFrom n)) := by
    obtain hsmall | hlarge := Nat.lt_or_ge n 512
    · obtain ⟨dati', hshort⟩ := readOnlyOpen_short disk j.dati hsize0 hsmall hfirst
      exact ⟨dati', disk, hshort⟩
    · apply readOnlyOpen_long j.dati hsize0 hlarge hn hfirst
      rw [hnext0]
      exact hstored.chain (by omega)
  rw [hopen, hread]
  refine ⟨_, disk', rfl, hmode0, hmagic0, hsize0, rfl, hall, fun hbad => ?_⟩
  exact (hlost hbad).trans (hbehind _ (lostFrom_ge n))

/-! ### The round trip -/

/-- What the calls of a round trip find in variables and memory. -/
structure Leftovers where
  writer : Unset
  grown : Nat → Buffer
  flushed : Buffer
  reader : Unset

/-- The bytes are written to a file of this name, which is then read; nothing, if a file cannot
be opened. -/
def roundTrip (l : Leftovers) (disk : Disk) (dir : Directory) (name : Name) (bytes : List Byte) :
    Option (List Byte) := do
  let (opened, dir, disk) ← fopen l.writer disk name dir .writeOnly
  let writer ← opened
  let (_, disk) := fflush disk (putAll l.grown bytes writer) l.flushed
  let (opened, _, _) ← fopen l.reader disk name dir .readOnly
  let reader ← opened
  some (getAll (reader.header.size.toNat + 1) reader)

theorem freeNumber_le (vetCluster : VetCluster) : freeNumber vetCluster ≤ maxCluster := by
  unfold freeNumber freePlaces
  exact (Finset.card_filter_le _ _).trans (Finset.card_range _).le

theorem Fits.length_lt (h : Fits disk dir name n) : n < 2 ^ 32 := by
  obtain ⟨dir', disk', -, hroom⟩ := h.room
  have hle := Nat.le_trans hroom (freeNumber_le disk'.vetCluster)
  unfold blocksBehind maxCluster at hle
  split at hle <;> omega

/-- The bytes that a round trip gives are those that the file had, but for the byte that is lost
at some lengths. -/
theorem Fits.roundTrip_eq {bytes : List Byte} (h : Fits disk dir name bytes.length)
    (l : Leftovers) : ∃ dati : Buffer,
      roundTrip l disk dir name bytes = some ((List.range bytes.length).map dati) ∧
      (LengthOk bytes.length → ∀ k < bytes.length, dati k = bytes.getD k 0) ∧
      (¬ LengthOk bytes.length →
        dati (lostPlace bytes.length) = l.reader.buffer (lostFrom bytes.length)) := by
  have hn := h.length_lt
  obtain ⟨f, dir', disk', hopen, hwritten, hb, hbusy, hsearch, hroom⟩ := h.fopen_write l.writer
  obtain ⟨hall, hfirst⟩ := @Written.putAll f [] bytes hwritten l.grown (by simpa using hn)
  rw [List.nil_append] at hall
  rw [← hall.size] at hroom
  obtain ⟨disk'', header, -, hflush, hcode, hstored, -, -⟩ :=
    fflush_stored l.flushed (hfirst ▸ hb) (hfirst ▸ hbusy) hroom
  rw [hfirst, hall.size] at hstored
  obtain ⟨g, disk''', hread, hmode, hmagic, hsize, hpos, hok, hlost⟩ :=
    fopen_read l.reader hsearch hb.ne_zero hstored (hcode ▸ hall.magicCode) hn
  refine ⟨g.dati, ?_, fun hlen k hk => ?_, hlost⟩
  · unfold roundTrip
    rw [hopen]
    simp only [Option.bind_eq_bind, Option.bind_some, hflush, hread]
    have hget := @getAll_eq g (g.header.size.toNat + 1) hmode hmagic
      (by rw [hpos]; exact Nat.zero_le _) (by rw [hpos]; exact Nat.lt_succ_self _)
    rw [hget, hpos, hsize, Nat.sub_zero, List.range_eq_range']
  · rw [hok hlen k hk, hall.dati k hk]

theorem map_range_eq {bytes : List Byte} {dati : Buffer} :
    (List.range bytes.length).map dati = bytes ↔ ∀ k < bytes.length, dati k = bytes.getD k 0 := by
  constructor
  · intro heq k hk
    have hget := congrArg (fun l => l.getD k 0) heq
    rw [List.getD_eq_getElem _ _ (by simpa using hk)] at hget
    simpa using hget
  · intro h
    apply List.ext_getElem (by simp)
    intro k hk hk'
    rw [List.getElem_map, List.getElem_range, h k hk', List.getD_eq_getElem _ _ hk']

theorem lostPlace_lt (h : ¬ LengthOk n) : lostPlace n < n := by
  unfold LengthOk at h
  unfold lostPlace
  split <;> omega

/-- Whatever the memory holds, a file that fits on the disk is read as it was written if and only
if its length is none at which a block is overfull. -/
theorem round_trip_iff {bytes : List Byte} (h : Fits disk dir name bytes.length) :
    (∀ l, roundTrip l disk dir name bytes = some bytes) ↔ LengthOk bytes.length := by
  constructor
  · intro hall
    by_contra hlost
    -- behind the buffer of the reader there is another byte than the one that is lost
    obtain ⟨v, hv⟩ : ∃ v : Byte, v = bytes.getD (lostPlace bytes.length) 0 := ⟨_, rfl⟩
    let j : Unset := ⟨fun _ => 0, fun _ => 0, fun _ => v + 1, fun _ => 0, fun _ => 0⟩
    obtain ⟨dati, htrip, -, hbyte⟩ := h.roundTrip_eq ⟨j, fun _ _ => 0, fun _ => 0, j⟩
    have heq := Option.some.inj (htrip.symm.trans (hall _))
    have hsame := map_range_eq.mp heq _ (lostPlace_lt hlost)
    rw [hbyte hlost, ← hv] at hsame
    have hne : v + 1 ≠ v := by bv_omega
    exact hne hsame
  · intro hok l
    obtain ⟨dati, htrip, hkept, -⟩ := h.roundTrip_eq l
    rw [htrip, map_range_eq.mpr (hkept hok)]

/-- A formatted floppy: the kernel takes the first 63 blocks, and the root directory the next
one. -/
def formattedDisk : Disk := ⟨fun k => if k < 2 then 0xFFFFFFFF else 0, fun _ _ => 0⟩

def rootDirectory : Directory where
  header := fillHeader directory fun _ => 0
  self := ⟨directory, 64, rootName⟩
  entries := []

def fileName : Name := ⟨[0x61], by decide, by decide⟩

theorem formattedDisk_fits (h : blocksBehind n < 2816) :
    Fits formattedDisk rootDirectory fileName n := by
  refine ⟨by decide, by decide, List.nodup_nil, fun e he => absurd he List.not_mem_nil,
    rootDirectory, formattedDisk, rfl, ?_⟩
  have hfree : freeNumber formattedDisk.vetCluster = 2816 := by
    unfold freeNumber
    decide +kernel
  rw [hfree, Nat.add_comm]
  exact h

theorem round_trip_600 : LengthOk 600 ∧
    ∀ l, roundTrip l formattedDisk rootDirectory fileName (List.replicate 600 0x78) =
      some (List.replicate 600 0x78) := by
  refine ⟨by decide, (round_trip_iff (formattedDisk_fits ?_)).mpr ?_⟩
  · rw [List.length_replicate]
    decide
  · rw [List.length_replicate]
    decide

/-- Of 456 bytes the last one is lost. -/
theorem last_byte_lost : Fits formattedDisk rootDirectory fileName 456 ∧
    ∃ l, roundTrip l formattedDisk rootDirectory fileName (List.replicate 456 0x78) ≠
      some (List.replicate 456 0x78) := by
  have hfits : Fits formattedDisk rootDirectory fileName 456 := formattedDisk_fits (by decide)
  have hlength : (List.replicate 456 (0x78 : Byte)).length = 456 := List.length_replicate
  let j : Unset := ⟨fun _ => 0, fun _ => 0, fun _ => 0, fun _ => 0, fun _ => 0⟩
  refine ⟨hfits, ⟨j, fun _ _ => 0, fun _ => 0, j⟩, fun heq => ?_⟩
  obtain ⟨dati, htrip, -, hbyte⟩ := (hlength.symm ▸ hfits : Fits formattedDisk rootDirectory
    fileName (List.replicate 456 (0x78 : Byte)).length).roundTrip_eq
      ⟨j, fun _ _ => 0, fun _ => 0, j⟩
  have hsame := map_range_eq.mp (Option.some.inj (htrip.symm.trans heq)) 455
    (by rw [hlength]; decide)
  rw [hlength] at hbyte
  have hzero : dati 455 = 0 := hbyte (by decide)
  rw [hzero, List.getD_replicate _ (by decide)] at hsame
  exact absurd hsame (by decide)

end OsdevArchive.Silvios
