import Mathlib.Algebra.Group.Nat.Defs
import Mathlib.Algebra.Order.Group.Int
import OsdevArchive.Minirighi.FloppyCache

/-!
The requests that `__fdc_phys_read` makes to the controller (`drivers/floppy/floppy.c`).
`fdc_rw` is told a block, an address and a number of sectors; it addresses the drive by the
cylinder, head and sector of the block, and the drive reads on along the track. A request may
fail, and then the loop ends. What the loop does to the cache is in `Floppy`.
-/

namespace OsdevArchive.Minirighi.Floppy

/-- `floppy_struct_t`. -/
structure FloppyStruct extends Geometry where
  size : Nat
  tracks : Nat
  size_eq : size = spt * heads * tracks
  size_le : size ≤ 0x7fffffff

/-- `floppy_type`. -/
def floppyType : List FloppyStruct :=
  [⟨⟨18, 2, h1440.sptPos, h1440.headsPos⟩, 2880, 80, by decide, by decide⟩,
    ⟨⟨21, 2, by decide, h1440.headsPos⟩, 3360, 80, by decide, by decide⟩]

/-- `FDC_SECTOR_SIZE`. -/
def fdcSectorSize : Nat := 512

/-- The coordinates of a block. -/
structure Chs where
  track : Int
  head : Int
  sector : Int
  deriving DecidableEq

/-- `lba2chs`. -/
def lba2chs (g : Geometry) (lba : Int) : Chs where
  track := lba.tdiv (g.spt * g.heads)
  head := (lba.tdiv g.spt).tmod g.heads
  sector := lba.tmod g.spt + 1

/-- The arguments of `fdc_rw`, with the address as an offset in `buf`. -/
structure Request where
  block : Int
  ptr : Int
  nsec : Int

/-- The blocks of a request. -/
def Request.blocks (r : Request) : List Int :=
  (List.range r.nsec.toNat).map fun i : Nat => r.block + i

/-- All blocks of the request are on the track and under the head of the first one. -/
def Request.OnTrack (g : Geometry) (r : Request) : Prop :=
  ∀ b ∈ r.blocks, (lba2chs g b).track = (lba2chs g r.block).track ∧
    (lba2chs g b).head = (lba2chs g r.block).head

/-- `-EIO`. -/
def eio : Int := -5

/-- The controller and its drive. What `fdc_rw` returns and what `fdc_buffer` holds then may
depend on all requests so far. -/
structure Drive (g : Geometry) where
  /-- The bytes of a sector. -/
  sector : Chs → Nat → UInt8
  ret : List Request → Int
  fdcBuffer : List Request → Nat → UInt8
  /-- A command that succeeds reads the sectors of a track one after the other. -/
  reads : ∀ (past : List Request) (r : Request), 0 ≤ ret (past ++ [r]) →
    (lba2chs g r.block).sector + r.nsec ≤ g.spt + 1 →
    ∀ i j : Nat, (i : Int) < r.nsec → j < fdcSectorSize →
      fdcBuffer (past ++ [r]) (i * fdcSectorSize + j) =
        sector { lba2chs g r.block with sector := (lba2chs g r.block).sector + i } j

/-- The destination after `fdc_rw`. It is not written if `fdc_rw` returns before its end. -/
def Drive.fdcRw {g : Geometry} (d : Drive g) (requests : List Request) (r : Request)
    (buf : Int → UInt8) (a : Int) : UInt8 :=
  if (0 ≤ d.ret requests ∨ d.ret requests = eio) ∧ r.ptr ≤ a ∧
      a < r.ptr + r.nsec * fdcSectorSize then
    d.fdcBuffer requests (a - r.ptr).toNat
  else buf a

/-- The variables of `__fdc_phys_read`, and the requests it has made. -/
structure PhysSt where
  first : Int
  ptr : Int
  ret : Int
  buf : Int → UInt8
  requests : List Request

/-- The arguments of the next call of `fdc_rw`. -/
def PhysSt.next (g : Geometry) (last : Int) (s : PhysSt) : Request :=
  let start := lba2chs g s.first
  let stop := lba2chs g last
  let upper := if start.track = stop.track ∧ start.head = stop.head then stop.sector else g.spt
  ⟨s.first, s.ptr, upper - start.sector + 1⟩

/-- A round of the loop up to the test of `ret`. -/
def PhysSt.request {g : Geometry} (d : Drive g) (r : Request) (s : PhysSt) : PhysSt :=
  { s with
    ret := d.ret (s.requests ++ [r])
    buf := d.fdcRw (s.requests ++ [r]) r s.buf
    requests := s.requests ++ [r] }

/-- The loop over `i`. -/
def PhysSt.advance (r : Request) (s : PhysSt) : PhysSt :=
  { s with first := s.first + max 0 r.nsec, ptr := s.ptr + max 0 r.nsec * fdcSectorSize }

/-- The loop of `__fdc_phys_read`; `none` if it does not end within `fuel` rounds. -/
def physReadLoop {g : Geometry} (d : Drive g) (last : Int) : Nat → PhysSt → Option PhysSt
  | 0, _ => none
  | fuel + 1, s =>
      if s.first ≤ last then
        let r := s.next g last
        let s := s.request d r
        if s.ret < 0 then some s else physReadLoop d last fuel (s.advance r)
      else some s

/-- `__fdc_phys_read`. The sum is one of `unsigned` numbers. -/
def physRead {g : Geometry} (d : Drive g) (fuel : Nat) (block : Int) (buf : Int → UInt8)
    (count : Nat) : Option PhysSt :=
  let last := Int.bmod (block + count - 1) (2 ^ 32)
  physReadLoop d last fuel ⟨block, 0, 0, buf, []⟩

/-! ## The coordinates -/

theorem lba2chs_cast (g : Geometry) (b : Nat) : lba2chs g b =
    ⟨(b / (g.spt * g.heads) : Nat), (b / g.spt % g.heads : Nat), (b % g.spt + 1 : Nat)⟩ := by
  unfold lba2chs
  rw [← Int.natCast_mul]
  rfl

/-- What is read at once does not go beyond the track. -/
theorem chunkLen_track (g : Geometry) (first last : Nat) :
    first % g.spt + chunkLen g first last ≤ g.spt := by
  have hfirst := Nat.mod_lt first g.sptPos
  have hlast := Nat.mod_lt last g.sptPos
  unfold chunkLen
  dsimp only
  split <;> omega

/-- The blocks up to the end of a track have its coordinates. -/
theorem lba2chs_add (g : Geometry) {b i : Nat} (h : b % g.spt + i < g.spt) :
    lba2chs g (b + i : Nat) = { lba2chs g b with sector := (lba2chs g b).sector + i } := by
  have hsplit : b + i = g.spt * (b / g.spt) + (b % g.spt + i) := by
    rw [← Nat.add_assoc, Nat.div_add_mod]
  have hdiv : (b + i) / g.spt = b / g.spt := by
    rw [hsplit, Nat.mul_add_div g.sptPos, Nat.div_eq_of_lt h, Nat.add_zero]
  have hmod : (b + i) % g.spt = b % g.spt + i := by
    rw [hsplit, Nat.mul_add_mod, Nat.mod_eq_of_lt h]
  rw [lba2chs_cast, lba2chs_cast, ← Nat.div_div_eq_div_mul, ← Nat.div_div_eq_div_mul, hdiv, hmod]
  simp only [Chs.mk.injEq, true_and]
  omega

/-! ## One round -/

variable {g : Geometry} {d : Drive g} {s : PhysSt} {first last : Nat}

theorem next_eq (hfirst : s.first = first) (hle : first ≤ last) :
    s.next g last = ⟨first, s.ptr, chunkLen g first last⟩ := by
  have hb := Nat.div_add_mod first g.spt
  have hc := Nat.div_add_mod last g.spt
  have hmod := Nat.mod_lt first g.sptPos
  unfold PhysSt.next chunkLen
  rw [hfirst, lba2chs_cast, lba2chs_cast]
  simp only [Int.natCast_inj, Request.mk.injEq, true_and]
  split
  · next hsame =>
    rw [div_spt_eq hsame] at hb
    omega
  · omega

theorem blocks_eq (ptr : Int) (first n : Nat) :
    Request.blocks ⟨first, ptr, n⟩ = (List.range' first n).map Nat.cast := by
  unfold Request.blocks
  rw [Int.toNat_natCast, List.range'_eq_map_range, List.map_map]
  apply List.map_congr_left
  intro i _
  exact (Int.natCast_add first i).symm

/-- A request of `__fdc_phys_read`, which was called for the blocks from `block` on: it is not
empty, it stays on one track, and its place in the buffer is that of its first block. -/
structure Fitting (g : Geometry) (block : Nat) (r : Request) : Prop where
  nsec_pos : 0 < r.nsec
  onTrack : r.OnTrack g
  ptr : r.ptr = (r.block - block) * fdcSectorSize

theorem fitting {block : Nat} {ptr : Int} (hle : first ≤ last)
    (hptr : ptr = ((first : Int) - block) * fdcSectorSize) :
    Fitting g block ⟨first, ptr, chunkLen g first last⟩ where
  nsec_pos := Int.natCast_pos.mpr (chunkLen_bounds g hle).1
  onTrack := by
    intro b hb
    rw [blocks_eq] at hb
    obtain ⟨c, hc, rfl⟩ := List.mem_map.mp hb
    obtain ⟨i, hi, rfl⟩ := List.mem_range'.mp hc
    have htrack := chunkLen_track g first last
    rw [Nat.one_mul, lba2chs_add g (by omega)]
    exact ⟨rfl, rfl⟩
  ptr := hptr

/-- The loop has requested the blocks before `block + m`, and those before `block + n` have
arrived. -/
structure Progress (d : Drive g) (buf : Int → UInt8) (block n m : Nat) (s : PhysSt) : Prop where
  blocks : s.requests.flatMap Request.blocks = (List.range' block m).map Nat.cast
  fitting : ∀ r ∈ s.requests, Fitting g block r
  delivered : ∀ k < n, ∀ j < fdcSectorSize,
    s.buf (k * fdcSectorSize + j : Nat) = d.sector (lba2chs g (block + k : Nat)) j
  rest : ∀ a : Int, a < 0 ∨ (m * fdcSectorSize : Nat) ≤ a → s.buf a = buf a

/-- The state at the head of the loop. -/
structure AtHead (d : Drive g) (buf : Int → UInt8) (block n : Nat) (s : PhysSt) : Prop
    extends Progress d buf block n n s where
  first : s.first = (block + n : Nat)
  ptr : s.ptr = (n * fdcSectorSize : Nat)

variable {buf : Int → UInt8} {block n m : Nat}

/-- What a request writes that starts behind the `n` blocks which have arrived. -/
theorem fdcRw_apply {requests : List Request} {c : Nat} (a : Int) :
    d.fdcRw requests ⟨first, (n * fdcSectorSize : Nat), c⟩ buf a =
      if (0 ≤ d.ret requests ∨ d.ret requests = eio) ∧ (n * fdcSectorSize : Nat) ≤ a ∧
          a < ((n + c) * fdcSectorSize : Nat) then
        d.fdcBuffer requests (a - (n * fdcSectorSize : Nat)).toNat
      else buf a := by
  unfold Drive.fdcRw
  have hend : ((n * fdcSectorSize : Nat) : Int) + c * fdcSectorSize =
      ((n + c) * fdcSectorSize : Nat) := by
    rw [Nat.add_mul, Int.natCast_add, Int.natCast_mul c]
  dsimp only
  rw [hend]

theorem AtHead.next (h : AtHead d buf block n s) (hle : block + n ≤ last) :
    s.next g last =
      ⟨(block + n : Nat), (n * fdcSectorSize : Nat), chunkLen g (block + n) last⟩ := by
  rw [next_eq h.first hle, h.ptr]

/-- A request leaves what has arrived. -/
theorem AtHead.requested (h : AtHead d buf block n s) (hle : block + n ≤ last) :
    Progress d buf block n (n + chunkLen g (block + n) last) (s.request d (s.next g last)) := by
  obtain ⟨hpos, -⟩ := chunkLen_bounds g hle
  have hnext := h.next hle
  have hwrite : (s.request d (s.next g last)).buf =
      d.fdcRw (s.requests ++ [s.next g last]) (s.next g last) s.buf := rfl
  rw [hnext] at hwrite ⊢
  constructor
  · change (s.requests ++ [_]).flatMap Request.blocks = _
    rw [List.flatMap_append, h.blocks, List.flatMap_singleton, blocks_eq, ← List.map_append,
      List.range'_append_1]
  · intro r hr
    rcases List.mem_append.mp hr with hr | hr
    · exact h.fitting r hr
    · obtain rfl := List.mem_singleton.mp hr
      apply fitting hle
      rw [Int.natCast_mul, Int.natCast_add, add_sub_cancel_left]
  · intro k hk j hj
    rw [hwrite, fdcRw_apply, if_neg]
    · exact h.delivered k hk j hj
    · have hbefore : (k + 1) * fdcSectorSize ≤ n * fdcSectorSize := Nat.mul_le_mul_right _ hk
      rw [Nat.add_mul] at hbefore
      omega
  · intro a ha
    have hmono : n * fdcSectorSize ≤ (n + chunkLen g (block + n) last) * fdcSectorSize :=
      Nat.mul_le_mul_right _ (Nat.le_add_right _ _)
    rw [hwrite, fdcRw_apply, if_neg (by omega)]
    apply h.rest
    omega

/-- A request that succeeds delivers its blocks. -/
theorem AtHead.advance (h : AtHead d buf block n s) (hle : block + n ≤ last)
    (hret : 0 ≤ (s.request d (s.next g last)).ret) :
    AtHead d buf block (n + chunkLen g (block + n) last)
      ((s.request d (s.next g last)).advance (s.next g last)) := by
  have hprogress := h.requested hle
  obtain ⟨hpos, -⟩ := chunkLen_bounds g hle
  have htrack := chunkLen_track g (block + n) last
  have hnext := h.next hle
  have hwrite : (s.request d (s.next g last)).buf =
      d.fdcRw (s.requests ++ [s.next g last]) (s.next g last) s.buf := rfl
  change 0 ≤ d.ret (s.requests ++ [s.next g last]) at hret
  refine ⟨⟨hprogress.blocks, hprogress.fitting, ?_, hprogress.rest⟩, ?_, ?_⟩
  · intro k hk j hj
    change (s.request d (s.next g last)).buf _ = _
    by_cases hold : k < n
    · exact hprogress.delivered k hold j hj
    · obtain ⟨i, rfl⟩ : ∃ i, k = n + i := ⟨k - n, by omega⟩
      have hreads := d.reads s.requests (s.next g last) hret
      rw [hnext] at hreads hwrite hret ⊢
      have hsector : (lba2chs g (block + n : Nat)).sector + (chunkLen g (block + n) last : Nat) ≤
          g.spt + 1 := by
        rw [lba2chs_cast]
        dsimp only
        omega
      have hend : (n + i + 1) * fdcSectorSize ≤
          (n + chunkLen g (block + n) last) * fdcSectorSize := Nat.mul_le_mul_right _ (by omega)
      have hstart : (n + i) * fdcSectorSize = n * fdcSectorSize + i * fdcSectorSize :=
        Nat.add_mul _ _ _
      rw [Nat.add_mul, Nat.one_mul] at hend
      have hmem : (i : Int) < (chunkLen g (block + n) last : Nat) := by omega
      have hcoords := lba2chs_add (i := i) (b := block + n) g (by omega)
      have hoffset : (((n * fdcSectorSize + (i * fdcSectorSize + j) : Nat) : Int) -
          (n * fdcSectorSize : Nat)).toNat = i * fdcSectorSize + j := by
        omega
      rw [hwrite, fdcRw_apply, if_pos ⟨Or.inl hret, by omega, by omega⟩, hstart, Nat.add_assoc,
        hoffset, hreads hsector i j hmem hj, ← Nat.add_assoc, hcoords]
  · rw [PhysSt.advance, hnext]
    change s.first + max 0 _ = _
    rw [h.first]
    dsimp only
    omega
  · rw [PhysSt.advance, hnext]
    change s.ptr + max 0 _ * _ = _
    rw [h.ptr]
    dsimp only
    rw [max_eq_right (Int.natCast_nonneg _), Nat.add_mul, Int.natCast_add,
      Int.natCast_mul (chunkLen g (block + n) last)]

/-! ## The loop -/

/-- A negative `ret` is what the drive answered to the last of the requests. -/
def PhysSt.Answered {g : Geometry} (d : Drive g) (s : PhysSt) : Prop :=
  s.ret < 0 → s.requests ≠ [] ∧ d.ret s.requests = s.ret

/-- The loop ends, and a loop that no failure ends has read up to `last`. -/
theorem physReadLoop_spec {fuel : Nat} (h : AtHead d buf block n s) (hret : 0 ≤ s.ret)
    (hle : block + n ≤ last + 1) (hfuel : last + 1 - (block + n) < fuel) :
    ∃ t n' m, physReadLoop d last fuel s = some t ∧ n' ≤ m ∧ block + m ≤ last + 1 ∧
      Progress d buf block n' m t ∧ (0 ≤ t.ret → block + n' = last + 1) ∧ t.Answered d := by
  induction fuel generalizing s n with
  | zero => exact absurd hfuel (Nat.not_lt_zero _)
  | succ fuel ih =>
    rw [physReadLoop, h.first]
    by_cases hlast : block + n ≤ last
    · obtain ⟨hpos, hend⟩ := chunkLen_bounds g hlast
      rw [if_pos (by omega)]
      dsimp only
      by_cases hfail : (s.request d (s.next g last)).ret < 0
      · rw [if_pos hfail]
        refine ⟨_, n, _, rfl, Nat.le_add_right _ _, by omega, h.requested hlast,
          fun hok => absurd hfail (not_lt.mpr hok), fun _ => ⟨?_, rfl⟩⟩
        exact List.append_ne_nil_of_right_ne_nil _ (List.cons_ne_nil _ _)
      · rw [if_neg hfail]
        exact ih (h.advance hlast (not_lt.mp hfail)) (not_lt.mp hfail) (by omega) (by omega)
    · rw [if_neg (by omega)]
      exact ⟨s, n, n, rfl, Nat.le_refl _, hle, h.toProgress, fun _ => by omega,
        fun hneg => absurd hneg (not_lt.mpr hret)⟩

/-- Whatever the controller answers: the requests cover the blocks from `block` on one after the
other, none of them leaves its track, and each block that arrives does so at its place in the
buffer. It fails only with what the drive has answered to its last request; if it does not
fail, and so always if the drive does not, the `count` blocks have been requested and have
arrived. -/
theorem requests_cover (f : FloppyStruct) (d : Drive f.toGeometry) (buf : Int → UInt8)
    (block count fuel : Nat) (hdisk : block + count ≤ f.size) (hfuel : count < fuel) :
    ∃ s n m, physRead d fuel block buf count = some s ∧ n ≤ m ∧ m ≤ count ∧
      Progress d buf block n m s ∧ (0 ≤ s.ret → n = count) ∧
      (s.ret < 0 → s.requests ≠ [] ∧ d.ret s.requests = s.ret) ∧
      ((∀ requests, 0 ≤ d.ret requests) → n = count) := by
  have hsize := f.size_le
  have hstart : AtHead d buf block 0 ⟨block, 0, 0, buf, []⟩ :=
    ⟨⟨rfl, fun r hr => absurd hr List.not_mem_nil, fun k hk => absurd hk (Nat.not_lt_zero k),
      fun _ _ => rfl⟩, rfl, by rw [Nat.zero_mul]; rfl⟩
  have hlast : Int.bmod (block + count - 1) (2 ^ 32) = block + count - 1 := by
    apply Int.bmod_eq_of_le <;> omega
  unfold physRead
  dsimp only
  rw [hlast]
  cases count with
  | zero =>
    obtain ⟨fuel, rfl⟩ : ∃ k, fuel = k + 1 := ⟨fuel - 1, by omega⟩
    rw [physReadLoop, if_neg (by dsimp only; omega)]
    exact ⟨_, 0, 0, rfl, Nat.le_refl _, Nat.le_refl _, hstart.toProgress, fun _ => rfl,
      fun hneg => absurd hneg (Int.lt_irrefl 0), fun _ => rfl⟩
  | succ count =>
    have hcast : (block : Int) + (count + 1 : Nat) - 1 = (block + count : Nat) := by omega
    rw [hcast]
    have hle : block + 0 ≤ block + count + 1 := by omega
    have hrounds : block + count + 1 - (block + 0) < fuel := by omega
    obtain ⟨s, n, m, hloop, hnm, hm, hprogress, hdone, hanswered⟩ :=
      physReadLoop_spec hstart (Int.le_refl _) hle hrounds
    have hmcount : m ≤ count + 1 := by omega
    have hok (hret : 0 ≤ s.ret) : n = count + 1 := by
      have hall := hdone hret
      omega
    refine ⟨s, n, m, hloop, hnm, hmcount, hprogress, hok, hanswered, fun hdrive => hok ?_⟩
    by_contra hneg
    have hfailed := (hanswered (not_le.mp hneg)).2
    exact hneg (hfailed ▸ hdrive s.requests)

/-- A drive without failures on which every byte of a sector is its number. -/
def flawless (g : Geometry) : Drive g where
  sector c _ := UInt8.ofNat c.sector.toNat
  ret _ := 0
  fdcBuffer requests a :=
    match requests.getLast? with
    | none => 0
    | some r => UInt8.ofNat ((lba2chs g r.block).sector + (a / fdcSectorSize : Nat)).toNat
  reads past r _ _ i j _ hj := by
    have hsector : (i * fdcSectorSize + j) / fdcSectorSize = i := by
      rw [Nat.mul_comm, Nat.mul_add_div (by decide), Nat.div_eq_of_lt hj, Nat.add_zero]
    rw [List.getLast?_concat]
    dsimp only
    rw [hsector]

/-- Three blocks on both sides of the end of a track. -/
theorem requests_cover_three : ∃ f ∈ floppyType, ∃ s n m,
    physRead (flawless f.toGeometry) 4 17 (fun _ => 0) 3 = some s ∧ n ≤ m ∧ m ≤ 3 ∧
      Progress (flawless f.toGeometry) (fun _ => 0) 17 n m s ∧ (0 ≤ s.ret → n = 3) ∧
      (s.ret < 0 → s.requests ≠ [] ∧ (flawless f.toGeometry).ret s.requests = s.ret) ∧
      ((∀ requests, 0 ≤ (flawless f.toGeometry).ret requests) → n = 3) :=
  ⟨_, List.mem_cons_self, requests_cover _ (flawless _) (fun _ => 0) 17 3 4
    (by decide) (by decide)⟩

end OsdevArchive.Minirighi.Floppy
