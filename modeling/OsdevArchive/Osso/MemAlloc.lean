import OsdevArchive.Osso.AddressSpace

/-!
The loops of `mem_alloc_and_copy` and `mem_alloc_and_fill` (`kernel/process.c`), in both of
their versions, and that of `Linear_alloc` (`kernel/memory.c`), with the record of the load:
each writes one piece of the address space.
-/

namespace OsdevArchive.Osso.AddressSpace

open OsdevArchive.Lib.Stores OsdevArchive.Osso.PageTables
open OsdevArchive.Osso.Memory (Dword PageKind dimPage)

namespace Load

/-- The loop of `mem_alloc_and_copy` without `NEW_MEM_ALLOC_AND_COPY`. -/
def copyBytes (level : Dword) (feed : Feed) (dest : Dword) : Nat → Nat → Load → Option Load
  | 0, _, l => some l
  | n + 1, i, l =>
    (l.prepare level (dest + BitVec.ofNat 32 i)).bind fun l =>
      copyBytes level feed dest n (i + 1) (l.write (dest + BitVec.ofNat 32 i) feed 1 i)

/-- The loop with it. Where `current+rest` is zero again, no byte is written. -/
def copyChunks (level : Dword) (feed : Feed) : Nat → Dword → Dword → Nat → Load → Option Load
  | 0, _, _, _, l => some l
  | fuel + 1, current, todo, i, l =>
    if todo = 0 then some l
    else
      (l.prepare level current).bind fun l =>
        let rest := dimPage - current % dimPage
        let rest := if todo < rest then todo else rest
        let n := (current + rest).toNat - current.toNat
        copyChunks level feed fuel (current + BitVec.ofNat 32 n) (todo - rest) (i + n)
          (l.write current feed n i)

/-- `mem_alloc_and_copy` and `mem_alloc_and_fill`; `new` tells whether `NEW_MEM_ALLOC_AND_COPY` is
defined. -/
def memAlloc (new : Bool) (level : Dword) (feed : Feed) (dest size : Dword) (l : Load) :
    Option Load :=
  if new then copyChunks level feed size.toNat dest size 0 l
  else copyBytes level feed dest size.toNat 0 l

/-- The loop of `Linear_alloc`, with `last_used_page`. -/
def linearPages (livello : Dword) : Nat → Dword → Load → Option (Dword × Load)
  | 0, lastUsedPage, l => some (lastUsedPage, l)
  | n + 1, lastUsedPage, l =>
    (l.linearPage livello lastUsedPage).bind (linearPages livello n (lastUsedPage + dimPage))

/-- `Linear_alloc`: the address, and the new `last_used_page`. -/
def linearAlloc (l : Load) (dimensione livello lastUsedPage : Dword) :
    Option (Dword × Dword × Load) :=
  if l.mem.freePages < pagesNeeded dimensione then none
  else (linearPages livello (pagesNeeded dimensione).toNat lastUsedPage l).map fun r =>
    (lastUsedPage + dimPage, r)

end Load

/-! ### Without the record -/

variable {l l' : Load} {s t u : Space} {level livello dest a x : Dword} {feed : Feed}
  {n i : Nat} {v : Nat → Byte}

theorem prepare_toSpace (l : Load) (level a : Dword) :
    (l.prepare level a).map Load.toSpace = (l.toSpace.prepare level a).toOption := by
  unfold Load.prepare
  split <;> rename_i h <;> rw [h] <;> rfl

/-- The load does what `mem_alloc_and_copy` does. -/
theorem memAlloc_toSpace (new : Bool) (level : Dword) (feed : Feed) (dest size : Dword) (l : Load) :
    (l.memAlloc new level feed dest size).map Load.toSpace =
      (if new then l.toSpace.allocChunks level feed dest size
        else l.toSpace.allocBytes level feed dest size).toOption := by
  have hbytes : ∀ (n i : Nat) (l : Load), (Load.copyBytes level feed dest n i l).map Load.toSpace =
      (Space.byteLoop level feed dest n i l.toSpace).toOption := by
    intro n
    induction n with
    | zero => exact fun _ _ => rfl
    | succ n ih =>
      intro i l
      have hprepare := prepare_toSpace l level (dest + BitVec.ofNat 32 i)
      unfold Load.copyBytes Space.byteLoop
      cases hl : l.prepare level (dest + BitVec.ofNat 32 i) <;>
        cases hs : l.toSpace.prepare level (dest + BitVec.ofNat 32 i) <;>
        rw [hl, hs] at hprepare <;> cases hprepare
      · rfl
      · exact ih (i + 1) _
  have hchunks : ∀ (fuel : Nat) (current todo : Dword) (i : Nat) (l : Load),
      (Load.copyChunks level feed fuel current todo i l).map Load.toSpace =
        (Space.chunkLoop level feed fuel current todo i l.toSpace).toOption := by
    intro fuel
    induction fuel with
    | zero => exact fun _ _ _ _ => rfl
    | succ fuel ih =>
      intro current todo i l
      have hprepare := prepare_toSpace l level current
      unfold Load.copyChunks Space.chunkLoop
      split
      · rfl
      · cases hl : l.prepare level current <;> cases hs : l.toSpace.prepare level current <;>
          rw [hl, hs] at hprepare <;> cases hprepare
        · rfl
        · exact ih _ _ _ _
  unfold Load.memAlloc
  cases new with
  | true => exact hchunks _ _ _ _ _
  | false => exact hbytes _ _ _

/-- The load does what `Linear_alloc` does. -/
theorem linearAlloc_toSpace (l : Load) (dimensione livello last : Dword) :
    (l.linearAlloc dimensione livello last).map (fun r => (r.1, r.2.1, r.2.2.toSpace)) =
      (Process.linearAlloc ⟨l.toSpace, last, livello⟩ dimensione livello).map
        fun r => (r.1, r.2.lastUsedPage, r.2.toSpace) := by
  have hpages : ∀ (n : Nat) (last : Dword) (l : Load),
      (Load.linearPages livello n last l).map (fun r => (r.1, r.2.toSpace)) =
        (Process.allocLoop livello n ⟨l.toSpace, last, livello⟩).map
          fun p => (p.lastUsedPage, p.toSpace) := by
    intro n
    induction n with
    | zero => exact fun _ _ => rfl
    | succ n ih =>
      intro last l
      unfold Load.linearPages Process.allocLoop Load.linearPage
      cases hpage : Process.allocPage ⟨l.toSpace, last, livello⟩ livello with
      | none => rfl
      | some p =>
        have hp : p = ⟨p.toSpace, last + dimPage, livello⟩ := by
          unfold Process.allocPage at hpage
          split at hpage
          · cases hpage
          · obtain ⟨m, -, rfl⟩ := Option.map_eq_some_iff.mp hpage
            rfl
        exact (ih (last + dimPage) _).trans (by rw [← hp]; rfl)
  unfold Load.linearAlloc Process.linearAlloc
  split
  · rfl
  · have hloop := congrArg (Option.map fun r => (last + dimPage, r))
      (hpages (pagesNeeded dimensione).toNat last l)
    rw [Option.map_map, Option.map_map] at hloop ⊢
    exact hloop

/-! ### What a range asks for -/

/-- The two lists ask for the same, and the same is present after both. -/
def Alike (xs ys : List Access) : Prop :=
  ∀ k, demand k xs = demand k ys ∧ Seen.after k xs = Seen.after k ys

/-- The checks of `n` bytes. -/
def checks (dest : Dword) (n : Nat) : List Access :=
  (List.range n).map fun i => .check (dest + BitVec.ofNat 32 i)

variable {xs ys zs : List Access} {ps qs : List (Piece 32 Byte)} {k : Seen}

theorem Turn.alike (ht : Turn l xs ps l') (h : Alike xs ys) : Turn l ys ps l' where
  records := ht.records
  low := ht.low
  does := by
    intro hhigh k hown hknown
    obtain ⟨hdemand, hafter⟩ := h k
    rcases ht.does hhigh k hown hknown with hdoes | hrefused
    · refine Or.inl ⟨hdoes.own, ?_, hdoes.shared, hdoes.value, ?_⟩
      · rw [← hafter]
        exact hdoes.known
      · rw [← hdemand]
        exact hdoes.served
    · refine Or.inr ⟨?_, hrefused.recorded⟩
      rw [← hdemand]
      exact hrefused.refused

/-- The same pieces, put otherwise. -/
theorem Turn.pieces (ht : Turn l xs ps l') (hlow : (∃ p ∈ ps, Low p) ↔ ∃ p ∈ qs, Low p)
    (hwrite : ∀ m : Dword → Byte, writeAll ps m = writeAll qs m) : Turn l xs qs l' where
  records := ht.records
  low h := ht.low (hlow.mpr h)
  does := by
    intro hhigh k hown hknown
    have hps : ∀ p ∈ ps, ¬Low p := by
      intro p hp hl
      obtain ⟨q, hq, hql⟩ := hlow.mp ⟨p, hp, hl⟩
      exact hhigh q hq hql
    rcases ht.does hps k hown hknown with hdoes | hrefused
    · refine Or.inl ⟨hdoes.own, hdoes.known, hdoes.shared, ?_, hdoes.served⟩
      intro x hx
      rw [hdoes.value x hx, hwrite]
    · exact Or.inr hrefused

theorem exists_low_singleton {p : Piece 32 Byte} : (∃ q ∈ [p], Low q) ↔ Low p := by
  simp only [List.mem_singleton, exists_eq_left]

theorem low_zero : ¬Low ⟨a, 0, v⟩ := by
  rintro ⟨i, hi, -⟩
  exact Nat.not_lt_zero i hi

variable {m : Nat}

theorem low_add :
    Low ⟨a, n + m, v⟩ ↔
      Low ⟨a, n, v⟩ ∨ Low ⟨a + BitVec.ofNat 32 n, m, fun i => v (n + i)⟩ := by
  unfold Low
  dsimp only
  constructor
  · rintro ⟨i, hi, hin⟩
    rcases Nat.lt_or_ge i n with hlt | hge
    · exact Or.inl ⟨i, hlt, hin⟩
    · refine Or.inr ⟨i - n, by omega, ?_⟩
      rw [BitVec.add_assoc, ← BitVec.ofNat_add, Nat.add_sub_cancel' hge]
      exact hin
  · rintro (⟨i, hi, hin⟩ | ⟨i, hi, hin⟩)
    · exact ⟨i, by omega, hin⟩
    · refine ⟨n + i, by omega, ?_⟩
      rw [BitVec.ofNat_add, ← BitVec.add_assoc]
      exact hin

/-- Two pieces that follow each other are one. -/
theorem Turn.merge (hnm : n + m ≤ 2 ^ 32)
    (h : Turn l xs [⟨a, n, v⟩, ⟨a + BitVec.ofNat 32 n, m, fun i => v (n + i)⟩] l') :
    Turn l xs [⟨a, n + m, v⟩] l' := by
  refine h.pieces ?_ fun memory => ?_
  · rw [List.exists_mem_cons_iff, exists_low_singleton, exists_low_singleton, low_add]
  · change _ = (Piece.mk a (n + m) v).write memory
    rw [write_add hnm]
    rfl

/-- A piece without bytes. -/
theorem Turn.empty (h : Turn l xs [] l') : Turn l xs [⟨a, 0, v⟩] l' := by
  refine h.pieces ?_ fun memory => ?_
  · rw [exists_low_singleton, iff_false_intro low_zero]
    simp
  · change memory = (Piece.mk a 0 v).write memory
    rw [write_zero]

theorem checks_add (a : Dword) (n m : Nat) :
    checks a (n + m) = checks a n ++ checks (a + BitVec.ofNat 32 n) m := by
  unfold checks
  rw [List.range_add, List.map_append, List.map_map]
  congr 1
  apply List.map_congr_left
  intro i _
  change Access.check _ = .check _
  rw [BitVec.ofNat_add, BitVec.add_assoc]

/-- In a page, only the first byte asks for something. -/
theorem checks_page (hpos : 0 < n) (hn : n ≤ 4096 - offset a) : Alike [.check a] (checks a n) := by
  obtain ⟨n, rfl⟩ : ∃ m, n = m + 1 := ⟨n - 1, by omega⟩
  clear hpos
  have hone : checks a 1 = [.check a] := by
    change [Access.check (a + BitVec.ofNat 32 0)] = _
    rw [BitVec.add_zero]
  induction n with
  | zero =>
    rw [hone]
    exact fun k => ⟨rfl, rfl⟩
  | succ n ih =>
    intro k
    obtain ⟨hdemand, hafter⟩ := ih (by omega) k
    obtain ⟨hpde, hvpn⟩ := same_page (a := a) (show n + 1 < 4096 - offset a by omega)
    have hlast : checks (a + BitVec.ofNat 32 (n + 1)) 1 =
        [.check (a + BitVec.ofNat 32 (n + 1))] := by
      change [Access.check (_ + BitVec.ofNat 32 0)] = _
      rw [BitVec.add_zero]
    rw [checks_add, hlast, demand_append, Seen.after_append, ← hdemand, ← hafter]
    change _ = _ ++ (Access.asks (Access.visit k (.check a)) (.check (a + _)) ++ []) ∧
      Access.visit k (.check a) = Access.visit (Access.visit k (.check a)) (.check (a + _))
    unfold Access.asks Access.visit
    dsimp only
    rw [hpde, hvpn]
    simp

/-! ### Byte by byte -/

/-- Where the bytes of a later round come from. -/
theorem value_add (v : Nat → Byte) (i n : Nat) :
    (fun m => v (i + n + m)) = fun m => v (i + (n + m)) := by
  funext m
  rw [Nat.add_assoc]

theorem offset_lt (a : Dword) : offset a < 4096 := Nat.mod_lt _ (by decide)

/-- A round that writes `n` bytes and the rounds after it. -/
theorem Turn.round {l₁ : Load} (hfeed : ∀ s i, feed.read s i = v i)
    (h : l.prepare level a = some l₁) (hpos : 0 < n) (hn : n ≤ 4096 - offset a)
    (hnm : n + m ≤ 2 ^ 32) {c : Nat}
    (hrest : Turn (l₁.write a feed n i) (checks (a + BitVec.ofNat 32 n) c)
      [⟨a + BitVec.ofNat 32 n, m, fun j => v (i + n + j)⟩] l') :
    Turn l (checks a (n + c)) [⟨a, n + m, fun j => v (i + j)⟩] l' := by
  rw [value_add] at hrest
  rw [checks_add]
  exact (((chunk_turn hfeed h hpos hn).alike (checks_page hpos hn)).trans hrest).merge hnm

theorem copyBytes_turn (hfeed : ∀ s i, feed.read s i = v i) (hn : n ≤ 2 ^ 32)
    (h : Load.copyBytes level feed dest n i l = some l') :
    Turn l (checks (dest + BitVec.ofNat 32 i) n)
      [⟨dest + BitVec.ofNat 32 i, n, fun m => v (i + m)⟩] l' := by
  induction n generalizing i l with
  | zero =>
    obtain rfl := Option.some.inj h
    exact (Turn.refl l).empty
  | succ n ih =>
    obtain ⟨l₁, hprepare, hloop⟩ := Option.bind_eq_some_iff.mp h
    have hrest := ih (Nat.le_of_succ_le hn) hloop
    rw [BitVec.ofNat_add, ← BitVec.add_assoc] at hrest
    have hroom := offset_lt (dest + BitVec.ofNat 32 i)
    rw [Nat.add_comm n 1] at hn ⊢
    exact hrest.round hfeed hprepare Nat.one_pos (by omega) hn

/-! ### Page by page -/

/-- How many bytes the loop over the pages writes: all of them, unless it comes to the end
of the address space. Then it stays in the last page. -/
def stored (a : Dword) (todo : Nat) : Nat :=
  let first := 2 ^ 32 - 2 ^ 12 - a.toNat
  if a.toNat + todo < 2 ^ 32 then todo
  else first + (todo - first) % (2 ^ 32 - a.toNat - first)

theorem stored_le (a : Dword) (todo : Nat) : stored a todo ≤ todo := by
  have ha := a.isLt
  unfold stored
  dsimp only
  split
  · exact Nat.le_refl todo
  · have hmod := Nat.mod_le (todo - (2 ^ 32 - 2 ^ 12 - a.toNat))
      (2 ^ 32 - a.toNat - (2 ^ 32 - 2 ^ 12 - a.toNat))
    omega

theorem stored_zero (a : Dword) : stored a 0 = 0 := Nat.le_zero.mp (stored_le a 0)

variable {rest todo : Nat}

/-- A round that ends below the end of the address space. -/
theorem stored_add (hrest : rest = min (4096 - offset a) todo) (hend : a.toNat + rest < 2 ^ 32) :
    stored a todo = rest + stored (a + BitVec.ofNat 32 rest) (todo - rest) := by
  unfold offset at hrest
  unfold stored
  rw [toNat_add_ofNat hend]
  dsimp only
  split
  · rw [if_pos (by omega)]
    omega
  · rw [if_neg (by omega)]
    have hfirst : 2 ^ 32 - 2 ^ 12 - a.toNat =
        rest + (2 ^ 32 - 2 ^ 12 - (a.toNat + rest)) := by omega
    have hleft : todo - (2 ^ 32 - 2 ^ 12 - a.toNat) =
        todo - rest - (2 ^ 32 - 2 ^ 12 - (a.toNat + rest)) := by omega
    have hroom : 2 ^ 32 - a.toNat - (2 ^ 32 - 2 ^ 12 - a.toNat) =
        2 ^ 32 - (a.toNat + rest) - (2 ^ 32 - 2 ^ 12 - (a.toNat + rest)) := by omega
    rw [hleft, hroom]
    omega

/-- A round that ends at it. -/
theorem stored_end (hrest : rest = min (4096 - offset a) todo)
    (hend : a.toNat + rest = 2 ^ 32) : stored a todo = stored a (todo - rest) := by
  have ha := a.isLt
  unfold offset at hrest
  unfold stored
  dsimp only
  have hfirst : 2 ^ 32 - 2 ^ 12 - a.toNat = 0 := by omega
  have hroom : 2 ^ 32 - a.toNat = rest := by omega
  rw [hfirst, hroom, if_neg (by omega)]
  simp only [Nat.sub_zero, Nat.zero_add]
  have hmod : todo % rest = (todo - rest) % rest := by
    rw [Nat.mod_eq_sub_mod (by omega)]
  rw [hmod]
  split
  · exact Nat.mod_eq_of_lt (by omega)
  · rfl

/-- A round that ends there is in the last page. -/
theorem high_at_end (hrest : rest ≤ 4096 - offset a) (hend : a.toNat + rest = 2 ^ 32) :
    High a := by
  unfold High pde sharedEntries
  unfold offset at hrest
  omega

/-- The checks of an address, without a byte. -/
theorem check_turn (ha : High a) (h : l.prepare level a = some l') : Turn l [.check a] [] l' where
  records := prepare_records h
  low := by
    rintro ⟨p, hp, -⟩
    exact absurd hp List.not_mem_nil
  does _ _ hown hknown := (check_does ha h hown hknown).imp_left And.left

/-- What was asked for in a page is not asked for again. -/
theorem checks_again (hpos : 0 < n) (hn : n ≤ 4096 - offset a) (hm : m ≤ n) :
    Alike ([.check a] ++ checks a m) (checks a n) := by
  intro k
  obtain ⟨hdemand, hafter⟩ := checks_page hpos hn k
  rw [← hdemand, ← hafter]
  rcases Nat.eq_zero_or_pos m with rfl | hm0
  · exact ⟨rfl, rfl⟩
  · obtain ⟨hagain, hsame⟩ := checks_page hm0 (hm.trans hn) (Seen.after k [.check a])
    rw [demand_append, Seen.after_append, ← hagain, ← hsame]
    simp [demand, Seen.after, Access.asks, Access.visit]

theorem write_nothing (l : Load) (a : Dword) (feed : Feed) (i : Nat) : l.write a feed 0 i = l := by
  unfold Load.write
  simp [Space.chunk]

theorem copyChunks_turn {fuel : Nat} {current todo : Dword} (hfeed : ∀ s i, feed.read s i = v i)
    (hfuel : todo.toNat ≤ fuel)
    (h : Load.copyChunks level feed fuel current todo i l = some l') :
    Turn l (checks current (min todo.toNat (2 ^ 32 - current.toNat)))
      [⟨current, stored current todo.toNat, fun m => v (i + m)⟩] l' := by
  have hnothing : ∀ (l : Load) (a : Dword) (i : Nat), Turn l (checks a (min 0 (2 ^ 32 - a.toNat)))
      [⟨a, stored a 0, fun m => v (i + m)⟩] l := by
    intro l a i
    rw [Nat.zero_min, stored_zero]
    exact (Turn.refl l).empty
  induction fuel generalizing current todo i l with
  | zero =>
    obtain rfl := Option.some.inj h
    rw [Nat.le_zero.mp hfuel]
    exact hnothing _ _ _
  | succ fuel ih =>
    rw [Load.copyChunks] at h
    split at h
    · rename_i hzero
      obtain rfl := Option.some.inj h
      rw [hzero]
      exact hnothing _ _ _
    · rename_i hsome
      obtain ⟨l₁, hprepare, hloop⟩ := Option.bind_eq_some_iff.mp h
      have hmin := toNat_rest current todo
      dsimp only at hloop
      generalize (if todo < dimPage - current % dimPage then todo
        else dimPage - current % dimPage) = rest at hmin hloop
      have hpos : 0 < todo.toNat := Nat.pos_of_ne_zero fun hzero =>
        hsome (BitVec.eq_of_toNat_eq hzero)
      have hroom := offset_lt current
      have hcurrent := current.isLt
      have hle : rest.toNat ≤ 4096 - offset current := hmin ▸ Nat.min_le_left _ _
      have hone : 0 < rest.toNat := by omega
      have htodo : rest.toNat ≤ todo.toNat := hmin ▸ Nat.min_le_right _ _
      have hleft : (todo - rest).toNat = todo.toNat - rest.toNat :=
        BitVec.toNat_sub_of_le (BitVec.le_def.mpr htodo)
      have hbound : current.toNat + rest.toNat ≤ 2 ^ 32 := by
        unfold offset at hle
        omega
      rcases Nat.lt_or_eq_of_le hbound with hend | hend
      · have hn : (current + rest).toNat - current.toNat = rest.toNat := by
          rw [BitVec.toNat_add, Nat.mod_eq_of_lt hend, Nat.add_sub_cancel_left]
        rw [hn] at hloop
        have hlater := ih (by omega) hloop
        rw [hleft, toNat_add_ofNat hend] at hlater
        have hsmall := stored_le (current + BitVec.ofNat 32 rest.toNat) (todo.toNat - rest.toNat)
        have hsize := todo.isLt
        have hall := hlater.round hfeed hprepare hone hle (by omega)
        have hchecks : rest.toNat + min (todo.toNat - rest.toNat)
            (2 ^ 32 - (current.toNat + rest.toNat)) =
            min todo.toNat (2 ^ 32 - current.toNat) := by omega
        rw [hchecks, ← stored_add hmin hend] at hall
        exact hall
      · have hn : (current + rest).toNat - current.toNat = 0 := by
          rw [BitVec.toNat_add, hend]
          omega
        rw [hn, write_nothing, BitVec.add_zero, Nat.add_zero] at hloop
        have hlater := ih (by omega) hloop
        rw [hleft] at hlater
        have hboth := (check_turn (high_at_end hle hend) hprepare).trans hlater
        have hlast : min todo.toNat (2 ^ 32 - current.toNat) = rest.toNat := by omega
        rw [stored_end hmin hend, hlast]
        exact hboth.alike (checks_again hone hle (by omega))

/-! ### Whole calls -/

/-- The piece that a call of `mem_alloc_and_copy` writes. -/
def copied (new : Bool) (source : Nat → Byte) (dest size : Dword) : Piece 32 Byte :=
  { start := dest
    len := if new then stored dest size.toNat else size.toNat
    value := source }

/-- What it asks for. The loop over the pages does not go on behind the end of the address
space. -/
def copyAccesses (new : Bool) (dest size : Dword) : List Access :=
  checks dest (if new then min size.toNat (2 ^ 32 - dest.toNat) else size.toNat)

/-- `mem_alloc_and_copy` writes its piece. -/
theorem memAlloc_turn {new : Bool} {size : Dword} (hfeed : ∀ s i, feed.read s i = v i)
    (h : l.memAlloc new level feed dest size = some l') :
    Turn l (copyAccesses new dest size) [copied new v dest size] l' := by
  have hv : (fun m => v (0 + m)) = v := by
    funext m
    rw [Nat.zero_add]
  unfold Load.memAlloc at h
  unfold copied copyAccesses
  cases new with
  | true =>
    have hturn := copyChunks_turn hfeed (Nat.le_refl _) h
    rw [hv] at hturn
    exact hturn
  | false =>
    have hturn := copyBytes_turn hfeed (Nat.le_of_lt size.isLt) h
    rw [hv, BitVec.add_zero] at hturn
    exact hturn

/-- Where a piece is not low, no address of the call is. -/
theorem high_of_copied {new : Bool} {size : Dword} (h : ¬Low (copied new v dest size))
    (hm : m < size.toNat) (hin : dest.toNat + m < 2 ^ 32) : High (dest + BitVec.ofNat 32 m) := by
  apply Nat.le_of_not_lt
  intro hlow
  apply h
  refine ⟨m, ?_, hlow⟩
  unfold copied
  dsimp only
  split
  · -- What the loop over the pages leaves out is in the last page.
    unfold stored
    unfold pde sharedEntries at hlow
    rw [toNat_add_ofNat hin] at hlow
    dsimp only
    split <;> omega
  · exact hm

/-- The addresses of the page at `a`. -/
theorem mem_page (ha : offset a = 0) : (x - a).toNat < 4096 ↔ vpn x = vpn a := by
  have hxlt := x.isLt
  have halt := a.isLt
  unfold offset at ha
  unfold vpn
  rw [BitVec.toNat_sub]
  omega

/-! ### Stacks -/

/-- A page of the kernel's. -/
theorem page_turn (h : l.getpage = some l') : Turn l [.page] [] l' := by
  refine ⟨getpage_records h, ?_, ?_⟩
  · rintro ⟨p, hp, -⟩
    exact absurd hp List.not_mem_nil
  · intro _ k hown hknown
    left
    unfold Load.getpage at h
    split at h
    · rename_i p s hcall
      obtain rfl := Option.some.inj h
      have habove : (above l.toSpace).getpage = (some p, above s) := by
        rw [above_getpage, hcall]
      obtain ⟨i, rfl, hfree, hlist, hcount, -, hs⟩ := getpage_some habove
      obtain ⟨hcoherent, hmapping⟩ := hown.coherent.getpage habove
      have hpagine : (above s).pagine = (above l.toSpace).pagine := by rw [hs]
      have hdir : (above s).pagedir = (above l.toSpace).pagedir := by rw [hs]
      have hdata : (above s).data =
          Function.update (above l.toSpace).data ((above l.toSpace).pagine + i) fun _ => 0 := by
        rw [hs]
      have htook := took_page hpagine hdir hfree hlist hcount
      have hown' : Own (above s) := by
        apply hown.of_mapping (a := 0) hcoherent htook
        · intro d hd
          rw [hdir] at hd
          exact Or.inl hd
        · intro x e he
          exact Or.inl ((hmapping x).symm.trans he)
      refine ⟨hown', ⟨?_, ?_⟩, rfl, ?_, ?_⟩
      · intro x hx
        rw [hdir]
        exact hknown.dirs x hx
      · intro x hx
        rw [hmapping]
        exact hknown.pages x hx
      · intro x _
        exact hown.value_beside hfree hdata (hmapping x)
      · intro rest
        change serve (.page :: rest) l.toSpace.mem = _
        rw [serve_page, hcall]
        rfl
    · cases h

theorem above_allocPage {last : Dword} {p : Process} (ha : High (last + dimPage))
    (h : Process.allocPage ⟨s, last, livello⟩ livello = some p) :
    Process.allocPage ⟨above s, last, livello⟩ livello =
      some { p with toSpace := above p.toSpace } := by
  unfold Process.allocPage at h ⊢
  rw [above_getpage]
  split at h
  · cases h
  · rename_i temp m hcall
    obtain ⟨n, htable, rfl⟩ := Option.map_eq_some_iff.mp h
    rw [hcall]
    dsimp only
    rw [above_withTable ha htable]
    change some (Process.mk ((above n).setEntry _ _) _ _) = _
    rw [above_setEntry ha]

/-- A round of `Linear_alloc` is served. -/
theorem allocPage_served {last : Dword} {p : Process}
    (h : Process.allocPage ⟨s, last, livello⟩ livello = some p) (rest : List Request) :
    serve (.page :: (if ¬(s.pagedir (pde (last + dimPage))).present then [.table] else []) ++ rest)
      s.mem = serve rest p.mem := by
  unfold Process.allocPage at h
  split at h
  · cases h
  · rename_i temp m hcall
    change s.getpage = _ at hcall
    obtain ⟨n, htable, rfl⟩ := Option.map_eq_some_iff.mp h
    obtain ⟨-, -, -, -, -, -, hm⟩ := getpage_some hcall
    have hdir : m.pagedir = s.pagedir := by rw [hm]
    change serve (.page :: ((if _ then _ else _) ++ rest)) s.mem = serve rest n.mem
    rw [serve_page, hcall, if_neg (Option.some_ne_none temp)]
    unfold Space.withTable at htable
    rw [hdir] at htable
    split at htable
    · rename_i hpresent
      obtain rfl := Option.some.inj htable
      rw [if_neg (not_not.mpr hpresent)]
      rfl
    · rename_i hnot
      rw [if_pos hnot]
      split at htable
      · rename_i q r hgot
        obtain rfl := Option.some.inj htable
        change serve (.table :: rest) m.mem = _
        rw [serve_table, hgot]
        rfl
      · cases htable

/-- A round of `Linear_alloc` puts zeros into a page. -/
theorem linearPage_turn {last : Dword} (ha : offset (last + dimPage) = 0)
    (h : l.linearPage livello last = some l') :
    Turn l [.stack (last + dimPage)] [⟨last + dimPage, 4096, fun _ => 0⟩] l' := by
  have hlow : Low ⟨last + dimPage, 4096, fun _ => 0⟩ ↔ pde (last + dimPage) < sharedEntries :=
    low_of_page (by decide) (by omega)
  have hrecords := linearPage_records h
  unfold Load.linearPage at h
  obtain ⟨p, halloc, rfl⟩ := Option.map_eq_some_iff.mp h
  have hlast : p.lastUsedPage = last + dimPage := by
    unfold Process.allocPage at halloc
    split at halloc
    · cases halloc
    · obtain ⟨n, -, rfl⟩ := Option.map_eq_some_iff.mp halloc
      rfl
  generalize ha' : last + dimPage = a at *
  refine ⟨hrecords, ?_, ?_⟩
  · rintro ⟨q, hq, hl⟩
    obtain rfl := List.mem_singleton.mp hq
    change (l.shared || kernels p.toSpace p.lastUsedPage _) = true
    rw [hlast, Bool.or_eq_true]
    exact Or.inr (decide_eq_true (Or.inl (hlow.mp hl)))
  · intro hhigh k hown hknown
    left
    have hup : High a := Nat.le_of_not_lt (mt hlow.mpr (hhigh _ (List.mem_singleton_self _)))
    have habove := above_allocPage (ha' ▸ hup) halloc
    obtain ⟨hcoherent, -, -, hdir, i, htook, hdata, hmapping⟩ :=
      allocPage_some hown.coherent habove
    dsimp only at hdir hmapping hdata htook hcoherent
    rw [ha'] at hdir hmapping
    have hown' : Own (above p.toSpace) := by
      refine hown.of_mapping hcoherent htook (fun d => (hdir d).mp) fun x e he => ?_
      rw [hmapping] at he
      split at he
      · rename_i hvpn
        obtain rfl := Option.some.inj he
        exact Or.inr ⟨hvpn, i, List.mem_singleton_self i, rfl⟩
      · exact Or.inl he
    refine ⟨hown', ⟨?_, ?_⟩, ?_, ?_, ?_⟩
    · intro x hx
      rw [hdir, hknown.dirs x hx, or_comm]
      exact Finset.mem_insert.symm
    · intro x hx
      change _ ↔ vpn x ∈ insert (vpn a) k.pages
      rw [Finset.mem_insert, ← hknown.pages x hx, hmapping]
      split
      · rename_i hvpn
        exact iff_of_true (Option.some_ne_none _) (Or.inl hvpn)
      · rename_i hvpn
        exact (or_iff_right hvpn).symm
    · have hbase := hown'.table (pde a) ((hdir _).mpr (Or.inr rfl))
      rw [above_pagedir hup] at hbase
      have hkernels : kernels p.toSpace a (p.pagedir (pde a)).baseAddr = false :=
        kernels_eq_false.mpr ⟨hup, hbase⟩
      change (l.shared || kernels p.toSpace p.lastUsedPage _) = l.shared
      rw [hlast, hkernels, Bool.or_false]
    · intro x hx
      change _ = (Piece.mk a 4096 fun _ => 0).write _ x
      have hmap := hmapping x
      unfold Piece.write
      dsimp only
      split at hmap
      · rename_i hvpn
        rw [if_pos ((mem_page ha).mpr hvpn), value_of_mapping hmap, hdata, Function.update_self]
      · rename_i hvpn
        rw [if_neg (mt (mem_page ha).mp hvpn)]
        exact hown.value_beside (htook.taken i (List.mem_singleton_self i)).1 hdata hmap
    · intro rest
      have hserved := allocPage_served habove rest
      have hasks : demand k [.stack a] =
          .page :: if ¬((above l.toSpace).pagedir (pde (last + dimPage))).present then [.table]
            else [] := by
        rw [ha', demand, demand, List.append_nil]
        exact congrArg (_ :: ·) (if_congr (not_congr (hknown.dirs a hup)).symm rfl rfl)
      rw [hasks]
      exact hserved

/-- The pieces of `Linear_alloc`. -/
def linearPieces : Nat → Dword → List (Piece 32 Byte)
  | 0, _ => []
  | n + 1, lastUsedPage =>
    ⟨lastUsedPage + dimPage, 4096, fun _ => 0⟩ :: linearPieces n (lastUsedPage + dimPage)

def linearAccesses : Nat → Dword → List Access
  | 0, _ => []
  | n + 1, lastUsedPage =>
    .stack (lastUsedPage + dimPage) :: linearAccesses n (lastUsedPage + dimPage)

theorem offset_next {a : Dword} (ha : offset a = 0) : offset (a + dimPage) = 0 := by
  have hpage : dimPage.toNat = 4096 := rfl
  unfold offset at ha ⊢
  rw [BitVec.toNat_add, hpage]
  omega

theorem linearPages_turn {last next : Dword} (ha : offset last = 0)
    (h : Load.linearPages livello n last l = some (next, l')) :
    Turn l (linearAccesses n last) (linearPieces n last) l' ∧
      next = last + dimPage * BitVec.ofNat 32 n := by
  induction n generalizing last l with
  | zero =>
    obtain ⟨rfl, rfl⟩ := Prod.mk.inj (Option.some.inj h)
    exact ⟨Turn.refl l, by simp⟩
  | succ n ih =>
    obtain ⟨l₁, hpage, hloop⟩ := Option.bind_eq_some_iff.mp h
    have hfirst := linearPage_turn (offset_next ha) hpage
    obtain ⟨hrest, hnext⟩ := ih (offset_next ha) hloop
    refine ⟨hfirst.trans hrest, ?_⟩
    have hone : dimPage * BitVec.ofNat 32 1 = dimPage := rfl
    rw [hnext, BitVec.ofNat_add, BitVec.mul_add, hone]
    ac_rfl

end OsdevArchive.Osso.AddressSpace
