import Mathlib.Algebra.Group.Int.Defs
import Mathlib.Logic.Function.Basic
import OsdevArchive.Lib.Overlay
import OsdevArchive.Lib.Runs

/-!
The floppy driver (`drivers/floppy/floppy.c`) above the controller: the block cache,
`__fdc_phys_read`, `fdc_read`, `fdc_write` and `fdc_sync`, on one disk and without
errors of the controller. `D` is the type of the 512 bytes of a block. The blocks of
the cache have different numbers, so that a block is named by its number.

The cache is an overlay of the disk. A run that never frees a block that differs
from the disk, and never reads from the disk over such a block, is a run of a disk
without a cache.
-/

namespace OsdevArchive.Minirighi.Floppy

open Lib.Overlay Lib.Runs

/-- `floppy_struct_t`: what `lba2chs` reads of it. -/
structure Geometry where
  spt : Nat
  heads : Nat
  sptPos : 0 < spt
  headsPos : 0 < heads

/-- `floppy_type[ 0 ]`. -/
def h1440 : Geometry := ⟨18, 2, by decide, by decide⟩

/-- `floppy_cache_block_t`. -/
structure CacheBlock (D : Type*) where
  num : Nat
  dirty : Bool
  timestamp : Int
  data : D

/-- The disk, `floppy_cache` and `floppy_block_count`. -/
structure St (D : Type*) where
  disk : Nat → D
  cache : List (CacheBlock D)
  blockCount : Nat

/-- What a request meets at a block: the clock at each of its readings, and whether
`kmalloc` finds memory for a new block and for its queue entry. -/
structure Env where
  get : Int
  stamp : Int
  lru : Int
  mem : Bool
  node : Bool

variable {D : Type*}

/-- `FLOPPY_CACHE_MAX_BLOCKS`. -/
def floppyCacheMaxBlocks : Nat := 512

/-- Setting the timestamp of a block. -/
def touch (cache : List (CacheBlock D)) (num : Nat) (ticks : Int) : List (CacheBlock D) :=
  cache.map fun buf => if buf.num = num then { buf with timestamp := ticks } else buf

def find (cache : List (CacheBlock D)) (num : Nat) : Option (CacheBlock D) :=
  cache.find? fun buf => buf.num = num

/-- `floppy_cache_get_block`: the cache with the new timestamp, and the block. -/
def floppyCacheGetBlock (cache : List (CacheBlock D)) (num : Nat) (ticks : Int) :
    List (CacheBlock D) × Option (CacheBlock D) :=
  (touch cache num ticks, find cache num)

/-- The loop of `floppy_cache_delete_lru` over the cache. -/
def lruSearch : (old : Option (CacheBlock D)) → (minStamp : Int) → List (CacheBlock D) →
    Option (CacheBlock D)
  | old, _, [] => old
  | old, minStamp, buf :: rest =>
      if buf.timestamp < minStamp then lruSearch (some buf) buf.timestamp rest
      else lruSearch old minStamp rest

/-- The block that `floppy_cache_delete_lru` finds. -/
def lruBlock (cache : List (CacheBlock D)) (ticks : Int) : Option (CacheBlock D) :=
  lruSearch none (ticks + 1) cache

/-- `floppy_cache_delete_lru`. It looks at no dirty flag. -/
def floppyCacheDeleteLru (cache : List (CacheBlock D)) (ticks : Int) : List (CacheBlock D) :=
  match lruBlock cache ticks with
  | none => cache
  | some old => cache.eraseP fun buf => buf.num = old.num

/-- `floppy_cache_push_block`. -/
def floppyCachePushBlock (s : St D) (env : Env) (num : Nat) (block : D) : St D :=
  if !env.mem then s
  else
    let s :=
      if s.blockCount < floppyCacheMaxBlocks then { s with blockCount := s.blockCount + 1 }
      else { s with cache := floppyCacheDeleteLru s.cache env.lru }
    if env.node then { s with cache := s.cache ++ [⟨num, false, env.stamp, block⟩] } else s

/-- One block of the inner loop of `__fdc_phys_read`. -/
def keepBlock (env : Env) (num : Nat) (block : D) (s : St D) : St D :=
  let (cache, tmp) := floppyCacheGetBlock s.cache num env.get
  match tmp with
  | none => floppyCachePushBlock { s with cache } env num block
  | some _ => { s with cache := touch cache num env.stamp }

/-- The inner loop of `__fdc_phys_read`. -/
def keepBlocks (env : Nat → Env) : (num : Nat) → List D → St D → St D
  | _, [], s => s
  | num, block :: rest, s => keepBlocks env (num + 1) rest (keepBlock (env num) num block s)

/-- `fdc_rw` for reading: `nsec` blocks of the disk. -/
def fdcRead (disk : Nat → D) (block nsec : Nat) : List D :=
  (List.range nsec).map fun i => disk (block + i)

/-- `upper - sector + 1`: the blocks from `first` on that are read at once. -/
def chunkLen (g : Geometry) (first last : Nat) : Nat :=
  let track := first / (g.spt * g.heads)
  let track2 := last / (g.spt * g.heads)
  let head := first / g.spt % g.heads
  let head2 := last / g.spt % g.heads
  let sector := first % g.spt + 1
  let sector2 := last % g.spt + 1
  let upper := if track = track2 ∧ head = head2 then sector2 else g.spt
  upper - sector + 1

/-- The outer loop of `__fdc_phys_read`: the bytes that go to the buffer, and the
state. Every round reads at least one block. -/
def physLoop (g : Geometry) (env : Nat → Env) (last : Nat) :
    (fuel first : Nat) → St D → List D × St D
  | 0, _, s => ([], s)
  | fuel + 1, first, s =>
      if last < first then ([], s)
      else
        let blocks := fdcRead s.disk first (chunkLen g first last)
        let (rest, t) :=
          physLoop g env last fuel (first + blocks.length) (keepBlocks env first blocks s)
        (blocks ++ rest, t)

/-- `__fdc_phys_read`, of at least one block. -/
def fdcPhysRead (g : Geometry) (env : Nat → Env) (block count : Nat) (s : St D) :
    List D × St D :=
  physLoop g env (block + count - 1) count block s

/-- `fdc_read`: from the first block on that is not in the cache everything is read
from the disk. -/
def read (g : Geometry) (env : Nat → Env) : (block count : Nat) → St D → List D × St D
  | _, 0, s => ([], s)
  | block, count + 1, s =>
      let (cache, tmp) := floppyCacheGetBlock s.cache block (env block).get
      match tmp with
      | none => fdcPhysRead g env block (count + 1) { s with cache }
      | some tmp =>
          let (rest, t) := read g env (block + 1) count
            { s with cache := touch cache block (env block).stamp }
          (tmp.data :: rest, t)

/-- Writing a block of the cache. -/
def store (cache : List (CacheBlock D)) (num : Nat) (data : D) (ticks : Int) :
    List (CacheBlock D) :=
  cache.map fun buf =>
    if buf.num = num then { buf with data, dirty := true, timestamp := ticks } else buf

/-- One block of the loop of `fdc_write`: a block that is in the cache is written
there only. -/
def writeBlock (env : Env) (num : Nat) (data : D) (s : St D) : St D :=
  let (cache, tmp) := floppyCacheGetBlock s.cache num env.get
  match tmp with
  | none => { s with cache, disk := Function.update s.disk num data }
  | some _ => { s with cache := store cache num data env.stamp }

/-- `fdc_write`. -/
def write (env : Nat → Env) : (block : Nat) → List D → St D → St D
  | _, [], s => s
  | block, data :: rest, s =>
      write env (block + 1) rest (writeBlock (env block) block data s)

/-- The loop of `fdc_sync` over the cache. -/
def flush (disk : Nat → D) (cache : List (CacheBlock D)) : Nat → D :=
  cache.foldl (fun disk fb => if fb.dirty then Function.update disk fb.num fb.data else disk) disk

/-- `fdc_sync`, with `floppy_cache_clear`. -/
def sync (s : St D) : St D := ⟨flush s.disk s.cache, [], 0⟩

/-- A request. -/
inductive Op (D : Type*) where
  | read (block count : Nat) (env : Nat → Env)
  | write (block : Nat) (data : List D) (env : Nat → Env)
  | sync

/-- A request: what it returns in the buffer, and the state after it. -/
def exec (g : Geometry) (s : St D) : Op D → List D × St D
  | .read block count env => read g env block count s
  | .write block data env => ([], write env block data s)
  | .sync => ([], sync s)

/-- The state after `init_floppy`, which clears the cache. -/
def St.boot (disk : Nat → D) : St D := ⟨disk, [], 0⟩

/-- A disk without a cache. -/
def writeThrough : (block : Nat) → List D → (Nat → D) → Nat → D
  | _, [], disk => disk
  | block, data :: rest, disk => writeThrough (block + 1) rest (Function.update disk block data)

/-- What a request does to a disk without a cache. -/
def uncached (disk : Nat → D) : Op D → Nat → D
  | .write block data _ => writeThrough block data disk
  | .read .. | .sync => disk

/-- What a disk without a cache returns. -/
def plainReply (disk : Nat → D) : Op D → List D
  | .read block count _ => fdcRead disk block count
  | .write .. | .sync => []

/-- What the cache holds of a block. -/
def content (cache : List (CacheBlock D)) (num : Nat) : Option D :=
  (find cache num).map CacheBlock.data

/-- What is stored on the disk or in the cache before it. -/
def view (s : St D) : Nat → D := overlay (content s.cache) s.disk

/-- Every block is in the cache once, and a block without the dirty flag is the
block of the disk. -/
structure Inv (disk : Nat → D) (cache : List (CacheBlock D)) : Prop where
  nodup : (cache.map CacheBlock.num).Nodup
  clean : ∀ buf ∈ cache, buf.dirty = false → buf.data = disk buf.num

theorem mem_of_find {cache : List (CacheBlock D)} {num : Nat} {buf : CacheBlock D}
    (h : find cache num = some buf) : buf ∈ cache ∧ buf.num = num := by
  rw [find] at h
  exact ⟨List.mem_of_find?_eq_some h, by simpa using List.find?_some h⟩

theorem content_of_find {cache : List (CacheBlock D)} {num : Nat} {buf : CacheBlock D}
    (h : find cache num = some buf) : content cache num = some buf.data := by
  rw [content, h, Option.map_some]

theorem find_eq_none {cache : List (CacheBlock D)} {num : Nat} :
    find cache num = none ↔ num ∉ cache.map CacheBlock.num := by
  simp [find, List.find?_eq_none]

theorem find_cons (buf : CacheBlock D) (cache : List (CacheBlock D)) (num : Nat) :
    find (buf :: cache) num = if buf.num = num then some buf else find cache num := by
  by_cases h : buf.num = num <;> simp [find, h]

theorem content_cons {buf : CacheBlock D} {cache : List (CacheBlock D)} :
    content (buf :: cache) = Function.update (content cache) buf.num (some buf.data) := by
  funext num
  by_cases h : num = buf.num
  · rw [content, find_cons, if_pos h.symm, h, Function.update_self, Option.map_some]
  · rw [content, find_cons, if_neg (Ne.symm h), Function.update_of_ne h, content]

theorem content_of_not_find {cache : List (CacheBlock D)} {num : Nat}
    (h : find cache num = none) : content cache num = none := by
  rw [content, h, Option.map_none]

theorem content_eq_none {cache : List (CacheBlock D)} {num : Nat} :
    content cache num = none ↔ num ∉ cache.map CacheBlock.num := by
  rw [content, Option.map_eq_none_iff, find_eq_none]

theorem content_of_mem {cache : List (CacheBlock D)} (hnd : (cache.map CacheBlock.num).Nodup)
    {buf : CacheBlock D} (h : buf ∈ cache) : content cache buf.num = some buf.data := by
  induction cache with
  | nil => cases h
  | cons head rest ih =>
      rw [List.map_cons, List.nodup_cons] at hnd
      rw [content_cons]
      rcases List.mem_cons.mp h with rfl | h
      · exact Function.update_self ..
      · have hne : buf.num ≠ head.num := by
          rintro heq
          exact hnd.1 (heq ▸ List.mem_map_of_mem h)
        rw [Function.update_of_ne hne, ih hnd.2 h]

theorem content_touch (cache : List (CacheBlock D)) (num : Nat) (ticks : Int) :
    content (touch cache num ticks) = content cache := by
  induction cache with
  | nil => rfl
  | cons buf rest ih =>
      rw [touch] at ih
      rw [touch, List.map_cons, content_cons, content_cons, ih]
      by_cases h : buf.num = num <;> simp [h]

theorem content_append {cache : List (CacheBlock D)} {buf : CacheBlock D}
    (h : content cache buf.num = none) :
    content (cache ++ [buf]) = Function.update (content cache) buf.num (some buf.data) := by
  induction cache with
  | nil => rw [List.nil_append, content_cons]
  | cons head rest ih =>
      have hne : head.num ≠ buf.num ∧ content rest buf.num = none := by
        rw [content_eq_none, List.map_cons, List.mem_cons, not_or] at h
        exact ⟨Ne.symm h.1, content_eq_none.mpr h.2⟩
      rw [List.cons_append, content_cons, content_cons, ih hne.2,
        Function.update_comm hne.1]

theorem content_erase {cache : List (CacheBlock D)} (hnd : (cache.map CacheBlock.num).Nodup)
    (num : Nat) :
    content (cache.eraseP fun buf => buf.num = num) =
      Function.update (content cache) num none := by
  induction cache with
  | nil => funext n; simp [content, find, Function.update]
  | cons buf rest ih =>
      rw [List.map_cons, List.nodup_cons] at hnd
      by_cases h : buf.num = num
      · subst h
        rw [List.eraseP_cons_of_pos (by simp), content_cons, Function.update_idem]
        exact (Function.update_eq_self_iff.mpr (content_eq_none.mpr hnd.1).symm).symm
      · rw [List.eraseP_cons_of_neg (by simpa using h), content_cons, ih hnd.2, content_cons,
          Function.update_comm h]

theorem store_of_not_mem {cache : List (CacheBlock D)} {num : Nat}
    (h : num ∉ cache.map CacheBlock.num) (data : D) (ticks : Int) :
    store cache num data ticks = cache := by
  refine (List.map_congr_left fun buf hbuf => if_neg ?_).trans (List.map_id _)
  rintro rfl
  exact h (List.mem_map_of_mem hbuf)

theorem content_store {cache : List (CacheBlock D)} {num : Nat}
    (h : num ∈ cache.map CacheBlock.num) (data : D) (ticks : Int) :
    content (store cache num data ticks) = Function.update (content cache) num (some data) := by
  induction cache with
  | nil => cases h
  | cons buf rest ih =>
      have hcons : store (buf :: rest) num data ticks =
          (if buf.num = num then { buf with data, dirty := true, timestamp := ticks }
            else buf) :: store rest num data ticks := rfl
      rw [hcons, content_cons, content_cons]
      by_cases hrest : num ∈ rest.map CacheBlock.num
      · rw [ih hrest]
        by_cases hbuf : buf.num = num
        · simp [hbuf]
        · rw [if_neg hbuf, Function.update_comm hbuf]
      · have hbuf : buf.num = num := by
          rw [List.map_cons, List.mem_cons] at h
          exact (h.resolve_right hrest).symm
        rw [store_of_not_mem hrest, if_pos hbuf, hbuf, Function.update_idem]

theorem nums_store (cache : List (CacheBlock D)) (num : Nat) (data : D) (ticks : Int) :
    (store cache num data ticks).map CacheBlock.num = cache.map CacheBlock.num := by
  rw [store, List.map_map]
  refine List.map_congr_left fun buf _ => ?_
  rw [Function.comp_apply]
  split <;> rfl

theorem mem_of_lruSearch {cache : List (CacheBlock D)} {found : Option (CacheBlock D)}
    {minStamp : Int} {old : CacheBlock D} (h : lruSearch found minStamp cache = some old) :
    found = some old ∨ old ∈ cache := by
  induction cache generalizing found minStamp with
  | nil => exact .inl h
  | cons buf rest ih =>
      rw [lruSearch] at h
      split at h
      · rcases ih h with hbuf | hrest
        · exact .inr (Option.some.inj hbuf ▸ List.mem_cons_self)
        · exact .inr (List.mem_cons_of_mem _ hrest)
      · exact (ih h).imp_right (List.mem_cons_of_mem _)

theorem mem_of_lruBlock {cache : List (CacheBlock D)} {ticks : Int} {old : CacheBlock D}
    (h : lruBlock cache ticks = some old) : old ∈ cache :=
  (mem_of_lruSearch h).resolve_left nofun

/-- `t` shows what `s` shows, on the same disk. -/
structure Keeps (s t : St D) : Prop where
  inv : Inv t.disk t.cache
  disk : t.disk = s.disk
  view : view t = view s

theorem Keeps.refl {s : St D} (h : Inv s.disk s.cache) : Keeps s s := ⟨h, rfl, rfl⟩

theorem Keeps.trans {s t u : St D} (h : Keeps s t) (k : Keeps t u) : Keeps s u :=
  ⟨k.inv, k.disk.trans h.disk, k.view.trans h.view⟩

theorem nums_touch (cache : List (CacheBlock D)) (num : Nat) (ticks : Int) :
    (touch cache num ticks).map (·.num) = cache.map (·.num) := by
  rw [touch, List.map_map]
  refine List.map_congr_left fun buf _ => ?_
  rw [Function.comp_apply]
  split <;> rfl

theorem touch_keeps {s : St D} (h : Inv s.disk s.cache) (num : Nat) (ticks : Int) :
    Keeps s { s with cache := touch s.cache num ticks } where
  inv := by
    refine ⟨(nums_touch s.cache num ticks).symm ▸ h.nodup, ?_⟩
    intro buf hbuf hclean
    obtain ⟨b, hb, rfl⟩ := List.mem_map.mp hbuf
    split at hclean <;> split <;> exact h.clean b hb hclean
  disk := rfl
  view := by rw [view, view, content_touch]

/-- What is true of the block that is freed when a block is pushed. -/
def EvictsSame (s : St D) (env : Env) (num : Nat) : Prop :=
  find s.cache num = none → env.mem = true → floppyCacheMaxBlocks ≤ s.blockCount →
    ∀ old, lruBlock s.cache env.lru = some old → old.data = s.disk old.num

theorem delete_keeps {s : St D} (h : Inv s.disk s.cache) {ticks : Int}
    (hold : ∀ old, lruBlock s.cache ticks = some old → old.data = s.disk old.num) :
    Keeps s { s with cache := floppyCacheDeleteLru s.cache ticks } := by
  cases hlru : lruBlock s.cache ticks with
  | none =>
      rw [floppyCacheDeleteLru, hlru]
      exact .refl h
  | some old =>
      rw [floppyCacheDeleteLru, hlru]
      have hsub : (s.cache.eraseP fun buf => buf.num = old.num).Sublist s.cache :=
        List.eraseP_sublist
      refine ⟨⟨h.nodup.sublist (hsub.map _), ?_⟩, rfl, ?_⟩
      · exact fun buf hbuf => h.clean buf (hsub.subset hbuf)
      · rw [view, view, content_erase h.nodup]
        refine overlay_drop ?_
        intro d hd
        rw [content_of_mem h.nodup (mem_of_lruBlock hlru), Option.some.injEq] at hd
        exact hd ▸ hold old hlru

theorem find_delete {cache : List (CacheBlock D)} {num : Nat} (h : find cache num = none)
    (ticks : Int) : find (floppyCacheDeleteLru cache ticks) num = none := by
  cases hlru : lruBlock cache ticks with
  | none => rw [floppyCacheDeleteLru, hlru, h]
  | some old =>
      rw [floppyCacheDeleteLru, hlru]
      exact List.Sublist.find?_eq_none List.eraseP_sublist h

/-- A block that comes from the disk does not show in the cache. -/
theorem append_keeps {s : St D} (h : Inv s.disk s.cache) {num : Nat}
    (hnum : find s.cache num = none) (stamp : Int) :
    Keeps s { s with cache := s.cache ++ [⟨num, false, stamp, s.disk num⟩] } where
  inv := by
    constructor
    · rw [List.map_append, List.map_singleton]
      refine List.nodup_append.mpr ⟨h.nodup, List.pairwise_singleton .., ?_⟩
      intro a ha b hb hab
      rw [hab, List.mem_singleton.mp hb] at ha
      exact find_eq_none.mp hnum ha
    · intro buf hbuf hclean
      rcases List.mem_append.mp hbuf with hbuf | hbuf
      · exact h.clean buf hbuf hclean
      · rw [List.mem_singleton.mp hbuf]
  disk := rfl
  view := by
    rw [view, view, content_append (content_of_not_find hnum)]
    exact overlay_fill (content_of_not_find hnum)

theorem push_keeps {s : St D} (h : Inv s.disk s.cache) {env : Env} {num : Nat}
    (hnum : find s.cache num = none) (hsame : EvictsSame s env num) :
    Keeps s (floppyCachePushBlock s env num (s.disk num)) := by
  cases hmem : env.mem with
  | false => simpa [floppyCachePushBlock, hmem] using Keeps.refl h
  | true =>
      -- the counter grows, or a block is freed
      obtain ⟨t, ht, hfind, hpush⟩ : ∃ t, Keeps s t ∧ find t.cache num = none ∧
          floppyCachePushBlock s env num (s.disk num) =
            if env.node then
              { t with cache := t.cache ++ [⟨num, false, env.stamp, s.disk num⟩] }
            else t := by
        by_cases hcount : s.blockCount < floppyCacheMaxBlocks
        · refine ⟨{ s with blockCount := s.blockCount + 1 }, ⟨h, rfl, rfl⟩, hnum, ?_⟩
          simp [floppyCachePushBlock, hmem, hcount]
        · refine ⟨_, delete_keeps h (hsame hnum hmem (Nat.le_of_not_lt hcount)),
            find_delete hnum env.lru, ?_⟩
          simp [floppyCachePushBlock, hmem, hcount]
      rw [hpush]
      split
      · have hkeep := append_keeps ht.inv hfind env.stamp
        rw [ht.disk] at hkeep ⊢
        exact ht.trans hkeep
      · exact ht

theorem touch_of_not_find {cache : List (CacheBlock D)} {num : Nat} (h : find cache num = none)
    (ticks : Int) : touch cache num ticks = cache := by
  refine (List.map_congr_left fun buf hbuf => if_neg ?_).trans (List.map_id _)
  rintro rfl
  exact find_eq_none.mp h (List.mem_map_of_mem hbuf)

theorem keepBlock_keeps {s : St D} (h : Inv s.disk s.cache) {env : Env} {num : Nat}
    (hsame : EvictsSame s env num) : Keeps s (keepBlock env num (s.disk num) s) := by
  cases hfind : find s.cache num with
  | none =>
      rw [keepBlock, floppyCacheGetBlock, hfind, touch_of_not_find hfind]
      exact push_keeps h hfind hsame
  | some buf =>
      rw [keepBlock, floppyCacheGetBlock, hfind]
      have hget := touch_keeps h num env.get
      exact hget.trans (touch_keeps hget.inv num env.stamp)

/-- What is true of every block that is freed while blocks are kept. -/
def EvictsAllSame (env : Nat → Env) : (num : Nat) → List D → St D → Prop
  | _, [], _ => True
  | num, block :: rest, s =>
      EvictsSame s (env num) num ∧
        EvictsAllSame env (num + 1) rest (keepBlock (env num) num block s)

theorem fdcRead_succ (disk : Nat → D) (block nsec : Nat) :
    fdcRead disk block (nsec + 1) = disk block :: fdcRead disk (block + 1) nsec := by
  rw [fdcRead, List.range_succ_eq_map, List.map_cons, List.map_map, fdcRead, Nat.add_zero]
  congr 1
  refine List.map_congr_left fun i _ => ?_
  rw [Function.comp_apply, Nat.succ_eq_add_one, Nat.add_right_comm, Nat.add_assoc]

theorem fdcRead_add (disk : Nat → D) (block a b : Nat) :
    fdcRead disk block (a + b) = fdcRead disk block a ++ fdcRead disk (block + a) b := by
  rw [fdcRead, List.range_add, List.map_append, List.map_map, fdcRead, fdcRead]
  congr 1
  refine List.map_congr_left fun i _ => ?_
  rw [Function.comp_apply, Nat.add_assoc]

theorem length_fdcRead (disk : Nat → D) (block nsec : Nat) :
    (fdcRead disk block nsec).length = nsec := by
  rw [fdcRead, List.length_map, List.length_range]

theorem keepBlocks_keeps {s : St D} {env : Nat → Env} {num nsec : Nat}
    (h : Inv s.disk s.cache) (hsame : EvictsAllSame env num (fdcRead s.disk num nsec) s) :
    Keeps s (keepBlocks env num (fdcRead s.disk num nsec) s) := by
  induction nsec generalizing num s with
  | zero => exact .refl h
  | succ nsec ih =>
      rw [fdcRead_succ] at hsame ⊢
      have hkeep := keepBlock_keeps h hsame.1
      have hnext : EvictsAllSame env (num + 1)
          (fdcRead (keepBlock (env num) num (s.disk num) s).disk (num + 1) nsec)
          (keepBlock (env num) num (s.disk num) s) := by
        rw [hkeep.disk]
        exact hsame.2
      have hrest := ih hkeep.inv hnext
      rw [hkeep.disk] at hrest
      exact hkeep.trans hrest

theorem keepBlocks_append (env : Nat → Env) (num : Nat) (xs ys : List D) (s : St D) :
    keepBlocks env num (xs ++ ys) s =
      keepBlocks env (num + xs.length) ys (keepBlocks env num xs s) := by
  induction xs generalizing num s with
  | nil => rfl
  | cons x xs ih =>
      rw [List.cons_append, keepBlocks, keepBlocks, ih, List.length_cons,
        Nat.add_right_comm, Nat.add_assoc]

theorem push_disk (s : St D) (env : Env) (num : Nat) (block : D) :
    (floppyCachePushBlock s env num block).disk = s.disk := by
  rw [floppyCachePushBlock]
  split
  · rfl
  · dsimp only
    split <;> split <;> rfl

theorem keepBlock_disk (env : Env) (num : Nat) (block : D) (s : St D) :
    (keepBlock env num block s).disk = s.disk := by
  cases hfind : find s.cache num with
  | none =>
      rw [keepBlock, floppyCacheGetBlock, hfind]
      exact push_disk ..
  | some buf => rw [keepBlock, floppyCacheGetBlock, hfind]

theorem keepBlocks_disk (env : Nat → Env) (num : Nat) (blocks : List D) (s : St D) :
    (keepBlocks env num blocks s).disk = s.disk := by
  induction blocks generalizing num s with
  | nil => rfl
  | cons block rest ih => rw [keepBlocks, ih, keepBlock_disk]

/-- Two blocks have the same track and head if they lie in the same run of `spt` blocks. -/
theorem div_spt_eq {g : Geometry} {b c : Nat}
    (h : b / (g.spt * g.heads) = c / (g.spt * g.heads) ∧
      b / g.spt % g.heads = c / g.spt % g.heads) :
    b / g.spt = c / g.spt := by
  rw [← Nat.div_div_eq_div_mul, ← Nat.div_div_eq_div_mul] at h
  rw [← Nat.div_add_mod (b / g.spt) g.heads, h.1, h.2, Nat.div_add_mod]

/-- What is read at once is not empty and does not go beyond `last`. -/
theorem chunkLen_bounds (g : Geometry) {first last : Nat} (h : first ≤ last) :
    0 < chunkLen g first last ∧ first + chunkLen g first last ≤ last + 1 := by
  have hfirst := Nat.div_add_mod first g.spt
  have hlast := Nat.div_add_mod last g.spt
  have hmod := Nat.mod_lt first g.sptPos
  have hle : first / g.spt ≤ last / g.spt := Nat.div_le_div_right h
  rw [chunkLen]
  split
  · rename_i hsame
    rw [div_spt_eq hsame] at hfirst
    omega
  · rename_i hother
    have hlt : first / g.spt < last / g.spt := by
      refine Nat.lt_of_le_of_ne hle fun heq => hother ?_
      rw [← Nat.div_div_eq_div_mul, ← Nat.div_div_eq_div_mul, heq]
      exact ⟨rfl, rfl⟩
    have hnext : g.spt * (first / g.spt) + g.spt ≤ g.spt * (last / g.spt) :=
      Nat.mul_succ .. ▸ Nat.mul_le_mul_left g.spt hlt
    omega

/-- The rounds of `__fdc_phys_read` together read the whole range from the disk. -/
theorem physLoop_eq (g : Geometry) (env : Nat → Env) {last fuel first nsec : Nat} (s : St D)
    (hfuel : nsec ≤ fuel) (hlast : last + 1 = first + nsec) :
    physLoop g env last fuel first s =
      (fdcRead s.disk first nsec, keepBlocks env first (fdcRead s.disk first nsec) s) := by
  induction fuel generalizing first nsec s with
  | zero =>
      obtain rfl : nsec = 0 := Nat.le_zero.mp hfuel
      rfl
  | succ fuel ih =>
      rw [physLoop]
      split
      · obtain rfl : nsec = 0 := by omega
        rfl
      · rename_i hle
        obtain ⟨hpos, hend⟩ := chunkLen_bounds g (Nat.le_of_not_lt hle)
        obtain ⟨more, hmore⟩ : ∃ more, nsec = chunkLen g first last + more :=
          ⟨nsec - chunkLen g first last, by omega⟩
        have hlast' : last + 1 = first + chunkLen g first last + more := by omega
        dsimp only
        rw [length_fdcRead, ih _ (by omega) hlast', keepBlocks_disk, hmore,
          fdcRead_add, keepBlocks_append, length_fdcRead]

theorem fdcPhysRead_eq (g : Geometry) (env : Nat → Env) (block count : Nat) (s : St D) :
    fdcPhysRead g env block (count + 1) s =
      (fdcRead s.disk block (count + 1),
        keepBlocks env block (fdcRead s.disk block (count + 1)) s) :=
  physLoop_eq g env s (Nat.le_refl _) (by omega)

/-- The blocks of the range that are in the cache hold what the disk holds. -/
def Fresh (s : St D) (block count : Nat) : Prop :=
  ∀ buf ∈ s.cache, block ≤ buf.num → buf.num < block + count → buf.data = s.disk buf.num

/-- The condition of a read: from its first block that is not in the cache on, the
cache holds what the disk holds, and so does every block that is freed. -/
def ReadMeets (env : Nat → Env) : (block count : Nat) → St D → Prop
  | _, 0, _ => True
  | block, count + 1, s =>
      if (find s.cache block).isNone then
        Fresh s block (count + 1) ∧ EvictsAllSame env block (fdcRead s.disk block (count + 1)) s
      else
        ReadMeets env (block + 1) count
          { s with
            cache := touch (touch s.cache block (env block).get) block (env block).stamp }

theorem view_of_fresh {s : St D} {block count : Nat} (h : Fresh s block count) :
    fdcRead s.disk block count = fdcRead (view s) block count := by
  refine List.map_congr_left fun i hi => ?_
  have hcount := List.mem_range.mp hi
  cases hfind : find s.cache (block + i) with
  | none => exact (overlay_of_none (content_of_not_find hfind)).symm
  | some buf =>
      obtain ⟨hbuf, hnum⟩ := mem_of_find hfind
      have hdata := h buf hbuf (by omega) (by omega)
      rw [hnum] at hdata
      exact hdata ▸ (overlay_of_some (content_of_find hfind)).symm

theorem read_spec {g : Geometry} {env : Nat → Env} {block count : Nat} {s : St D}
    (h : Inv s.disk s.cache) (hmeets : ReadMeets env block count s) :
    (read g env block count s).1 = fdcRead (view s) block count ∧
      Keeps s (read g env block count s).2 := by
  induction count generalizing block s with
  | zero => exact ⟨rfl, .refl h⟩
  | succ count ih =>
      cases hfind : find s.cache block with
      | none =>
          rw [ReadMeets, hfind, Option.isNone_none, if_pos rfl] at hmeets
          rw [read, floppyCacheGetBlock, hfind, touch_of_not_find hfind]
          dsimp only
          rw [fdcPhysRead_eq]
          exact ⟨view_of_fresh hmeets.1, keepBlocks_keeps h hmeets.2⟩
      | some buf =>
          rw [ReadMeets, hfind, Option.isNone_some, if_neg Bool.false_ne_true] at hmeets
          have hget := touch_keeps h block (env block).get
          have hkeep := hget.trans (touch_keeps hget.inv block (env block).stamp)
          obtain ⟨hrest, hlast⟩ := ih hkeep.inv hmeets
          rw [read, floppyCacheGetBlock, hfind]
          refine ⟨?_, hkeep.trans hlast⟩
          dsimp only
          rw [hrest, hkeep.view, fdcRead_succ]
          congr 1
          exact (overlay_of_some (content_of_find hfind)).symm

theorem writeBlock_spec {s : St D} (h : Inv s.disk s.cache) (env : Env) (num : Nat) (data : D) :
    Inv (writeBlock env num data s).disk (writeBlock env num data s).cache ∧
      view (writeBlock env num data s) = Function.update (view s) num data := by
  cases hfind : find s.cache num with
  | none =>
      rw [writeBlock, floppyCacheGetBlock, hfind, touch_of_not_find hfind]
      refine ⟨⟨h.nodup, ?_⟩, ?_⟩
      · intro buf hbuf hclean
        have hne : buf.num ≠ num := by
          rintro rfl
          exact find_eq_none.mp hfind (List.mem_map_of_mem hbuf)
        dsimp only
        rw [Function.update_of_ne hne]
        exact h.clean buf hbuf hclean
      · exact overlay_through (content_of_not_find hfind) data
  | some old =>
      have hmem : num ∈ (touch s.cache num env.get).map CacheBlock.num := by
        obtain ⟨hold, hnum⟩ := mem_of_find hfind
        exact nums_touch s.cache num env.get ▸ hnum ▸ List.mem_map_of_mem hold
      have hget := touch_keeps h num env.get
      rw [writeBlock, floppyCacheGetBlock, hfind]
      have hnodup : ((store (touch s.cache num env.get) num data env.stamp).map
          CacheBlock.num).Nodup := by
        rw [nums_store]
        exact hget.inv.nodup
      refine ⟨⟨hnodup, ?_⟩, ?_⟩
      · intro buf hbuf hclean
        obtain ⟨b, hb, rfl⟩ := List.mem_map.mp hbuf
        split at hclean
        · cases hclean
        · split
          · contradiction
          · exact hget.inv.clean b hb hclean
      · rw [view, content_store hmem, content_touch, overlay_put, view]

theorem write_spec {s : St D} (h : Inv s.disk s.cache) (env : Nat → Env) (block : Nat)
    (data : List D) :
    Inv (write env block data s).disk (write env block data s).cache ∧
      view (write env block data s) = writeThrough block data (view s) := by
  induction data generalizing block s with
  | nil => exact ⟨h, rfl⟩
  | cons d rest ih =>
      obtain ⟨hinv, hview⟩ := writeBlock_spec h (env block) block d
      rw [writeThrough, ← hview]
      exact ih hinv (block + 1)

/-- Writing back leaves on the disk what was seen through the cache. -/
theorem flush_eq {disk : Nat → D} {cache : List (CacheBlock D)} (h : Inv disk cache) :
    flush disk cache = overlay (content cache) disk := by
  induction cache generalizing disk with
  | nil => rfl
  | cons fb rest ih =>
      obtain ⟨hfb, hrest⟩ := List.nodup_cons.mp h.nodup
      -- a block without the flag is on the disk already
      have hdisk : (if fb.dirty then Function.update disk fb.num fb.data else disk) =
          Function.update disk fb.num fb.data := by
        split
        · rfl
        · rename_i hdirty
          rw [h.clean fb List.mem_cons_self (Bool.eq_false_iff.mpr hdirty),
            Function.update_eq_self]
      have hinv : Inv (Function.update disk fb.num fb.data) rest := by
        refine ⟨hrest, fun buf hbuf hclean => ?_⟩
        have hne : buf.num ≠ fb.num := fun heq => hfb (heq ▸ List.mem_map_of_mem hbuf)
        rw [Function.update_of_ne hne]
        exact h.clean buf (List.mem_cons_of_mem _ hbuf) hclean
      have hstep : flush disk (fb :: rest) =
          flush (if fb.dirty then Function.update disk fb.num fb.data else disk) rest := rfl
      rw [hstep, hdisk, ih hinv, overlay_through (content_eq_none.mpr hfb), content_cons,
        overlay_put]

theorem sync_disk {s : St D} (h : Inv s.disk s.cache) : (sync s).disk = view s :=
  flush_eq h

theorem inv_nil (disk : Nat → D) : Inv disk [] := ⟨List.nodup_nil, nofun⟩

/-- The condition of a request. -/
def Meets (s : St D) : Op D → Prop
  | .read block count env => ReadMeets env block count s
  | .write .. | .sync => True

/-- A request and the bytes that it returns. -/
def Serves (g : Geometry) (s : St D) (request : Op D × List D) (t : St D) : Prop :=
  exec g s request.1 = (request.2, t)

/-- A request to a disk without a cache. -/
def PlainServes (disk : Nat → D) (request : Op D × List D) (disk' : Nat → D) : Prop :=
  request.2 = plainReply disk request.1 ∧ disk' = uncached disk request.1

/-- A request that meets its condition is served as by a disk without a cache. -/
theorem exec_spec {g : Geometry} {s t : St D} {request : Op D × List D}
    (h : Inv s.disk s.cache) (hmeets : Meets s request.1) (hstep : Serves g s request t) :
    PlainServes (view s) request (view t) ∧ Inv t.disk t.cache := by
  obtain ⟨op, reply⟩ := request
  cases op with
  | read block count env =>
      obtain ⟨hreply, hkeep⟩ := read_spec (g := g) h hmeets
      obtain rfl : reply = (read g env block count s).1 := (congrArg Prod.fst hstep).symm
      obtain rfl : t = (read g env block count s).2 := (congrArg Prod.snd hstep).symm
      exact ⟨⟨hreply, hkeep.view⟩, hkeep.inv⟩
  | write block data env =>
      obtain ⟨hinv, hview⟩ := write_spec h env block data
      obtain ⟨rfl, rfl⟩ := Prod.mk.inj hstep
      exact ⟨⟨rfl, hview⟩, hinv⟩
  | sync =>
      obtain ⟨rfl, rfl⟩ := Prod.mk.inj hstep
      exact ⟨⟨rfl, sync_disk h⟩, inv_nil _⟩

/-- In a run whose requests meet their condition every request is served as by a
disk without a cache, and a sync makes the disk the same. -/
theorem cache_transparent {g : Geometry} {disk : Nat → D} {requests : List (Op D × List D)}
    {s : St D}
    (h : Run (Guarded (fun s request => Meets s request.1) (Serves g)) (St.boot disk) requests s) :
    Run PlainServes disk requests (sync s).disk := by
  obtain ⟨hrun, hinv⟩ := h.refines view
    (fun s request t hi hg => exec_spec hi hg.1 hg.2) (inv_nil disk)
  rw [sync_disk hinv]
  exact hrun

/-- A clock that stands still, and enough memory. -/
def still (_ : Nat) : Env := ⟨0, 0, 0, true, true⟩

theorem cache_transparent_rewrite :
    Run PlainServes (fun _ => 0)
      [(.read 1 1 still, [0]), (.write 1 [7] still, []), (.read 1 1 still, [7]), (.sync, [])]
      (Function.update (fun _ => 0) 1 7) := by
  refine cache_transparent (g := h1440) (s := ⟨Function.update (fun _ => 0) 1 7, [], 0⟩) ?_
  refine .cons ⟨?_, rfl⟩ <| .cons ⟨trivial, rfl⟩ <| .cons ⟨trivial, rfl⟩ <|
    .cons ⟨trivial, rfl⟩ <| .nil _
  refine ⟨nofun, fun _ _ hfull => ?_, trivial⟩
  exact absurd hfull (by decide)

/-- Block 1 is written in the cache only, and the read of blocks 0 and 1 that does
not find block 0 there returns the disk's block 1. -/
theorem cache_not_transparent :
    ∃ (disk : Nat → Nat) (requests : List (Op Nat × List Nat)) (s : St Nat),
      Run (Serves h1440) (St.boot disk) requests s ∧
        ∀ plain, ¬ Run PlainServes disk requests plain := by
  refine ⟨fun _ => 0, [(.read 1 1 still, [0]), (.write 1 [7] still, []),
    (.read 0 2 still, [0, 0])], _, .cons rfl <| .cons rfl <| .cons rfl <| .nil _, ?_⟩
  rintro plain (_ | ⟨⟨-, rfl⟩, _ | ⟨⟨-, rfl⟩, _ | ⟨⟨hreply, -⟩, -⟩⟩⟩)
  exact absurd hreply (by decide)

end OsdevArchive.Minirighi.Floppy
