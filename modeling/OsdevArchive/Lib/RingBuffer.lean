import Mathlib.Algebra.GroupWithZero.Nat
import Mathlib.Data.Fin.Basic
import Mathlib.Tactic.Common

/-!
Ring buffers: an array of `n` cells, an index to read from, and a number of cells
in use. `Holds` reads the used cells back as a list; pushing writes the first cell
behind them and popping advances the index. `RingQueue` is such an array with a second
index in the place of the number.
-/

namespace OsdevArchive.Lib.RingBuffer

variable {α β : Type*} {n : Nat} [NeZero n]

/-- The cell `i` places behind `read`. -/
def cell (read : Fin n) (i : Nat) : Fin n := Fin.ofNat n (read.val + i)

/-- The next cell, around the end of the array. -/
def advance (i : Fin n) : Fin n := cell i 1

/-- The cells from `read` on hold the items, in order; `R` says what it is for a
cell to hold an item. -/
def Holds (R : α → β → Prop) (cells : Fin n → α) (read : Fin n) (items : List β) : Prop :=
  ∀ i item, items[i]? = some item → R (cells (cell read i)) item

variable {R : α → β → Prop} {cells : Fin n → α} {read : Fin n} {items : List β} {item : β}

@[simp] theorem cell_zero (read : Fin n) : cell read 0 = read := by
  simp [cell]

theorem cell_cell (read : Fin n) (i j : Nat) : cell (cell read i) j = cell read (i + j) := by
  simp only [cell, Fin.ext_iff, Fin.ofNat_eq_cast, Fin.val_natCast]
  rw [Nat.mod_add_mod, Nat.add_assoc]

theorem cell_advance (read : Fin n) (i : Nat) : cell (advance read) i = cell read (i + 1) := by
  rw [advance, cell_cell, Nat.add_comm]

theorem advance_cell (read : Fin n) (i : Nat) : advance (cell read i) = cell read (i + 1) :=
  cell_cell read i 1

/-- Cells less than one turn apart are different. -/
theorem cell_ne {i j : Nat} (hij : i < j) (hj : j < n) : cell read i ≠ cell read j := by
  intro h
  have hval : (read.val + i) % n = (read.val + j) % n := by
    simpa [cell, Fin.ext_iff] using h
  have hdvd : n ∣ j - i := by
    have hsub := Nat.sub_mod_eq_zero_of_mod_eq hval.symm
    rw [Nat.add_sub_add_left] at hsub
    exact Nat.dvd_of_mod_eq_zero hsub
  exact absurd (Nat.le_of_dvd (by omega) hdvd) (by omega)

theorem Holds.nil : Holds R cells read [] := by
  intro i item h
  simp at h

theorem Holds.head (h : Holds R cells read (item :: items)) : R (cells read) item := by
  simpa using h 0 item rfl

theorem Holds.pop (h : Holds R cells read (item :: items)) :
    Holds R cells (advance read) items := by
  intro i other hi
  rw [cell_advance]
  exact h (i + 1) other (by simpa using hi)

/-- One item is replaced. -/
theorem Holds.set {before behind : List β} {old : β}
    (h : Holds R cells read (before ++ old :: behind))
    (hroom : before.length + behind.length < n) {a : α} (ha : R a item) :
    Holds R (Function.update cells (cell read before.length) a) read
      (before ++ item :: behind) := by
  intro i other hi
  have hlt : i < (before ++ item :: behind).length := (List.getElem?_eq_some_iff.mp hi).1
  simp only [List.length_append, List.length_cons] at hlt
  rcases Nat.lt_trichotomy i before.length with hi' | rfl | hi'
  · rw [Function.update_of_ne (cell_ne hi' (by omega))]
    apply h i other
    rwa [List.getElem?_append_left hi'] at hi ⊢
  · rw [Function.update_self]
    obtain rfl : item = other := by simpa using hi
    exact ha
  · rw [Function.update_of_ne (cell_ne hi' (by omega)).symm]
    apply h i other
    rw [List.getElem?_append_right (by omega)] at hi ⊢
    obtain ⟨k, hk⟩ : ∃ k, i - before.length = k + 1 := ⟨i - before.length - 1, by omega⟩
    simpa [hk] using hi

theorem Holds.left {behind : List β} (h : Holds R cells read (items ++ behind)) :
    Holds R cells read items := by
  intro i item hi
  apply h i item
  rwa [List.getElem?_append_left (List.getElem?_eq_some_iff.mp hi).1]

theorem Holds.push (h : Holds R cells read items) (hroom : items.length < n) {a : α}
    (ha : R a item) :
    Holds R (Function.update cells (cell read items.length) a) read (items ++ [item]) := by
  intro i other hi
  rcases Nat.lt_or_ge i items.length with hlt | hge
  · rw [Function.update_of_ne (cell_ne hlt hroom)]
    exact h i other (by rwa [List.getElem?_append_left hlt] at hi)
  · rw [List.getElem?_append_right hge] at hi
    obtain ⟨hlast, rfl⟩ : i - items.length = 0 ∧ item = other := by
      cases hk : i - items.length with
      | zero => exact ⟨rfl, by simpa [hk] using hi⟩
      | succ k => simp [hk] at hi
    obtain rfl : i = items.length := by omega
    rwa [Function.update_self]

/-! ### Rings with two indices -/

/-- An array with the index of its first used cell and that of its first free one. One
cell stays free, so that a full ring differs from an empty one. -/
structure RingQueue (n : Nat) (α : Type*) where
  cells : Fin n → α
  head : Fin n
  tail : Fin n

namespace RingQueue

def put (r : RingQueue n α) (a : α) : RingQueue n α :=
  { r with cells := Function.update r.cells r.tail a, tail := advance r.tail }

def take (r : RingQueue n α) : RingQueue n α := { r with head := advance r.head }

/-- The ring holds the items, the oldest first. -/
structure Contains (r : RingQueue n α) (items : List α) : Prop where
  used : Holds Eq r.cells r.head items
  tail : r.tail = cell r.head items.length
  room : items.length < n

variable {r : RingQueue n α} {items : List α} {a : α}

theorem Contains.nil (h : r.head = r.tail) : r.Contains [] where
  used := Holds.nil
  tail := by simp [h]
  room := Nat.pos_of_neZero n

theorem Contains.eq_nil_iff (h : r.Contains items) : r.head = r.tail ↔ items = [] := by
  constructor
  · intro heq
    by_contra hne
    apply cell_ne (List.length_pos_iff.mpr hne) h.room
    rw [cell_zero, ← h.tail, heq]
  · rintro rfl
    simp [h.tail]

theorem Contains.full_iff (h : r.Contains items) :
    r.head = advance r.tail ↔ items.length + 1 = n := by
  rw [h.tail, advance_cell]
  constructor
  · intro heq
    have hroom := h.room
    by_contra hne
    have hne : cell r.head 0 ≠ cell r.head (items.length + 1) := cell_ne (by omega) (by omega)
    rw [cell_zero, ← heq] at hne
    exact hne rfl
  · intro hfull
    simp [hfull, cell, Fin.ext_iff, Nat.mod_eq_of_lt r.head.isLt]

theorem Contains.put (h : r.Contains items) (hroom : r.head ≠ advance r.tail) :
    (r.put a).Contains (items ++ [a]) where
  used := by
    rw [RingQueue.put, h.tail]
    exact h.used.push h.room rfl
  tail := by
    simp only [RingQueue.put, h.tail, advance_cell, List.length_append, List.length_singleton]
  room := by
    have hlt := h.room
    have hne := mt h.full_iff.mpr hroom
    simp only [List.length_append, List.length_singleton]
    omega

theorem Contains.head_eq (h : r.Contains (a :: items)) : r.cells r.head = a := h.used.head

theorem Contains.take (h : r.Contains (a :: items)) : r.take.Contains items where
  used := h.used.pop
  tail := by simp only [RingQueue.take, h.tail, cell_advance, List.length_cons]
  room := Nat.lt_of_succ_lt h.room

theorem Contains.unique {items' : List α} (h : r.Contains items) (h' : r.Contains items') :
    items = items' := by
  have hlength : items.length = items'.length := by
    rcases Nat.lt_trichotomy items.length items'.length with hlt | heq | hlt
    · exact absurd (h.tail.symm.trans h'.tail) (cell_ne hlt h'.room)
    · exact heq
    · exact absurd (h'.tail.symm.trans h.tail) (cell_ne hlt h.room)
  apply List.ext_getElem hlength
  intro i hi hi'
  rw [← h.used i _ (List.getElem?_eq_getElem hi), ← h'.used i _ (List.getElem?_eq_getElem hi')]

/-- What a ring holds. -/
def contents (r : RingQueue n α) : List α :=
  (List.range ((r.tail.val + n - r.head.val) % n)).map fun i => r.cells (cell r.head i)

theorem contains_contents (r : RingQueue n α) : r.Contains r.contents where
  used := by
    intro i item hi
    obtain ⟨hlt, hitem⟩ := List.getElem?_eq_some_iff.mp hi
    simpa [contents] using hitem
  tail := by
    have hhead := r.head.isLt
    have htail := r.tail.isLt
    simp only [contents, List.length_map, List.length_range, cell, Fin.ext_iff,
      Fin.ofNat_eq_cast, Fin.val_natCast, Nat.add_mod_mod]
    rw [Nat.add_sub_cancel' (by omega), Nat.add_mod_right, Nat.mod_eq_of_lt htail]
  room := by
    simp only [contents, List.length_map, List.length_range]
    exact Nat.mod_lt _ (Nat.pos_of_neZero n)

theorem Contains.contents_eq (h : r.Contains items) : r.contents = items :=
  r.contains_contents.unique h

/-- An element goes in while the ring has less than `n - 1`. -/
theorem contents_put (r : RingQueue n α) (h : r.contents.length + 1 < n) :
    (r.put a).contents = r.contents ++ [a] := by
  have hroom : r.head ≠ advance r.tail := by
    rw [Ne, r.contains_contents.full_iff]
    exact Nat.ne_of_lt h
  exact (r.contains_contents.put hroom).contents_eq

theorem contents_take (r : RingQueue n α) {a : α} {items : List α}
    (h : r.contents = a :: items) : r.cells r.head = a ∧ r.take.contents = items := by
  have hholds : r.Contains (a :: items) := by
    rw [← h]
    exact r.contains_contents
  exact ⟨hholds.head_eq, hholds.take.contents_eq⟩

/-! #### Looking at every cell in use -/

/-- The indices from the head to the tail, around the end of the array. -/
def InUse (r : RingQueue n α) (i : Fin n) : Prop :=
  if r.head ≤ r.tail then r.head ≤ i ∧ i < r.tail else r.head ≤ i ∨ i < r.tail

theorem val_cell (read : Fin n) {i : Nat} (hi : i < n) :
    (cell read i).val = if read.val + i < n then read.val + i else read.val + i - n := by
  have hread := read.isLt
  have hval : (cell read i).val = (read.val + i) % n := rfl
  rw [hval]
  split
  · rename_i hlt
    exact Nat.mod_eq_of_lt hlt
  · rw [Nat.mod_eq_sub_mod (by omega), Nat.mod_eq_of_lt (by omega)]

omit [NeZero n] in
theorem used_eq (r : RingQueue n α) : (r.tail.val + n - r.head.val) % n =
    if r.head ≤ r.tail then r.tail.val - r.head.val else r.tail.val + n - r.head.val := by
  have hhead := r.head.isLt
  have htail := r.tail.isLt
  split
  · rename_i hle
    have hval : r.head.val ≤ r.tail.val := hle
    have hsum : r.tail.val + n - r.head.val = (r.tail.val - r.head.val) + n := by omega
    rw [hsum, Nat.add_mod_right, Nat.mod_eq_of_lt (by omega)]
  · rename_i hle
    have hval : ¬ r.head.val ≤ r.tail.val := hle
    exact Nat.mod_eq_of_lt (by omega)

theorem inUse_iff (r : RingQueue n α) (i : Fin n) :
    r.InUse i ↔ ∃ k < (r.tail.val + n - r.head.val) % n, cell r.head k = i := by
  have hi := i.isLt
  have hhead := r.head.isLt
  have htail := r.tail.isLt
  have hused := r.used_eq
  simp only [InUse, Fin.le_def, Fin.lt_def] at hused ⊢
  constructor
  · intro h
    refine ⟨if r.head.val ≤ i.val then i.val - r.head.val else i.val + n - r.head.val, ?_, ?_⟩
    · rw [hused]
      split at h <;> split <;> omega
    · apply Fin.ext
      rw [val_cell _ (by split <;> omega)]
      split <;> split <;> omega
  · rintro ⟨k, hk, rfl⟩
    rw [hused] at hk
    have hlt : k < n := by split at hk <;> omega
    have hval := val_cell r.head hlt
    split at hval <;> split at hk <;> split <;> omega

theorem mem_contents (r : RingQueue n α) (a : α) :
    a ∈ r.contents ↔ ∃ i, r.InUse i ∧ r.cells i = a := by
  simp only [contents, List.mem_map, List.mem_range, inUse_iff]
  constructor
  · rintro ⟨k, hk, ha⟩
    exact ⟨_, ⟨k, hk, rfl⟩, ha⟩
  · rintro ⟨_, ⟨k, hk, rfl⟩, ha⟩
    exact ⟨k, hk, ha⟩

/-- The loop that goes from the head to the tail and stops at what it looks for; `none` is a
loop that has not ended. -/
def search (p : α → Bool) : Nat → RingQueue n α → Option Bool
  | 0, _ => none
  | fuel + 1, r =>
    if r.head = r.tail then some false
    else if p (r.cells r.head) then some true
    else search p fuel r.take

theorem search_spec (p : α → Bool) {fuel : Nat} (r : RingQueue n α)
    (hfuel : r.contents.length < fuel) : search p fuel r = some (r.contents.any p) := by
  induction fuel generalizing r with
  | zero => exact absurd hfuel (Nat.not_lt_zero _)
  | succ fuel ih =>
    rw [search]
    cases hitems : r.contents with
    | nil =>
      rw [if_pos (r.contains_contents.eq_nil_iff.mpr hitems)]
      rfl
    | cons a items =>
      obtain ⟨hhead, htake⟩ := r.contents_take hitems
      have hne : r.head ≠ r.tail := by
        rw [Ne, r.contains_contents.eq_nil_iff, hitems]
        exact List.cons_ne_nil a items
      rw [hitems, List.length_cons] at hfuel
      rw [if_neg hne, hhead, List.any_cons]
      cases p a with
      | true => rfl
      | false =>
        rw [if_neg Bool.false_ne_true, ih r.take (by rw [htake]; omega), htake, Bool.false_or]

/-! #### Rings that run downwards -/

/-- The cell before, around the start of the array. -/
def back (i : Fin n) : Fin n := Fin.ofNat n (i.val + (n - 1))

/-- A ring that is filled and read from the top downwards, upside down. -/
def upsideDown (cells : Fin n → α) (head tail : Fin n) : RingQueue n α where
  cells i := cells i.rev
  head := head.rev
  tail := tail.rev

omit [NeZero n] in
theorem val_rev (i : Fin n) : i.rev.val + i.val + 1 = n := by
  have hlt := i.isLt
  rw [Fin.val_rev]
  omega

theorem back_rev (i : Fin n) : (back i).rev = advance i.rev := by
  have hlt := i.isLt
  have hi := val_rev i
  have hback := val_rev (back i)
  have hval : (back i).val = (i.val + (n - 1)) % n := rfl
  have hnext : (advance i.rev).val = (i.rev.val + 1) % n := rfl
  apply Fin.ext
  rw [hnext]
  rcases Nat.eq_zero_or_pos i.val with hzero | hpos
  · rw [hzero, Nat.zero_add, Nat.mod_eq_of_lt (by omega)] at hval
    have htop : i.rev.val + 1 = n := by omega
    rw [htop, Nat.mod_self]
    omega
  · have hsum : i.val + (n - 1) = (i.val - 1) + n := by omega
    rw [hsum, Nat.add_mod_right, Nat.mod_eq_of_lt (by omega)] at hval
    rw [Nat.mod_eq_of_lt (by omega)]
    omega

theorem upsideDown_length (cells : Fin n → α) (head tail : Fin n) :
    (upsideDown cells head tail).contents.length = (head.val + n - tail.val) % n := by
  have hhead := val_rev head
  have htail := val_rev tail
  rw [contents, List.length_map, List.length_range]
  congr 1
  simp only [upsideDown]
  omega

theorem upsideDown_put (cells : Fin n → α) (head tail : Fin n) (a : α) :
    upsideDown (Function.update cells tail a) head (back tail) =
      (upsideDown cells head tail).put a := by
  have hcells : (fun i : Fin n => Function.update cells tail a i.rev) =
      Function.update (fun i => cells i.rev) tail.rev a := by
    funext i
    by_cases hi : i = tail.rev
    · subst hi
      rw [Function.update_self, Fin.rev_rev, Function.update_self]
    · have hne : i.rev ≠ tail := fun heq => hi (by rw [← heq, Fin.rev_rev])
      rw [Function.update_of_ne hi, Function.update_of_ne hne]
  rw [upsideDown, back_rev, hcells]
  rfl

omit [NeZero n] in
theorem upsideDown_inUse (cells : Fin n → α) (head tail i : Fin n) :
    (upsideDown cells head tail).InUse i.rev ↔
      if tail ≤ head then tail < i ∧ i ≤ head else tail < i ∨ i ≤ head := by
  simp only [InUse, upsideDown, Fin.rev_le_rev, Fin.rev_lt_rev]
  split
  · exact and_comm
  · exact or_comm

theorem upsideDown_take (cells : Fin n → α) (head tail : Fin n) :
    upsideDown cells (back head) tail = (upsideDown cells head tail).take := by
  rw [upsideDown, back_rev]
  rfl

/-! #### Removing an item -/

/-- The items behind `i` move forward by one cell, until the one before `tail` has moved;
the cell that it leaves is the new tail. -/
def closeGap (tail : Fin n) : Nat → (Fin n → α) → Fin n → (Fin n → α) × Fin n
  | 0, cells, i => (cells, i)
  | fuel + 1, cells, i =>
    if advance i = tail then (cells, i)
    else closeGap tail fuel (Function.update cells i (cells (advance i))) (advance i)

variable [DecidableEq α]

/-- The first cell from `i` on with this item. -/
def find (r : RingQueue n α) (a : α) : Nat → Fin n → Option (Fin n)
  | 0, _ => none
  | fuel + 1, i =>
    if i = r.tail then none
    else if r.cells i = a then some i
    else r.find a fuel (advance i)

/-- The ring without the first `a`; the cell at the old tail gets `blank`. -/
def remove (r : RingQueue n α) (a blank : α) : Option (RingQueue n α) :=
  (r.find a n r.head).map fun i =>
    let (cells, tail) := closeGap r.tail n r.cells i
    { r with cells := Function.update cells r.tail blank, tail := tail }

omit [DecidableEq α] in
theorem closeGap_spec {fuel : Nat} {cells : Fin n → α} {read tail : Fin n} {gap : α}
    {before behind : List α} (h : Holds Eq cells read (before ++ gap :: behind))
    (htail : tail = cell read (before.length + 1 + behind.length))
    (hroom : before.length + 1 + behind.length < n) (hfuel : behind.length < fuel) :
    ∃ cells', closeGap tail fuel cells (cell read before.length) =
        (cells', cell read (before.length + behind.length)) ∧
      Holds Eq cells' read (before ++ behind) := by
  induction behind generalizing before fuel cells gap with
  | nil =>
    obtain ⟨fuel, rfl⟩ := Nat.exists_eq_succ_of_ne_zero (Nat.ne_of_gt hfuel)
    rw [closeGap, if_pos (by rw [advance_cell, htail]; rfl)]
    exact ⟨cells, rfl, by simpa using h.left⟩
  | cons b behind ih =>
    obtain ⟨fuel, rfl⟩ := Nat.exists_eq_succ_of_ne_zero (Nat.ne_of_gt (Nat.zero_lt_of_lt hfuel))
    simp only [List.length_cons] at htail hroom hfuel
    have hne : advance (cell read before.length) ≠ tail := by
      rw [advance_cell, htail]
      exact cell_ne (by omega) hroom
    have hb : cells (advance (cell read before.length)) = b := by
      rw [advance_cell]
      exact h _ b (by simp)
    have hset : Holds Eq (Function.update cells (cell read before.length) b) read
        ((before ++ [b]) ++ b :: behind) := by
      simpa using h.set (by simp; omega) rfl
    rw [closeGap, if_neg hne, hb, advance_cell]
    have hlength : (before ++ [b]).length = before.length + 1 := by simp
    have hmore : behind.length < fuel := by omega
    have hrest := ih hset (by rw [htail, hlength]; congr 1; omega) (by rw [hlength]; omega) hmore
    rw [hlength] at hrest
    simpa [Nat.add_right_comm, Nat.add_assoc, Nat.add_comm 1] using hrest

theorem Contains.find_spec {fuel : Nat} {before behind : List α}
    (h : r.Contains (before ++ behind))
    (hfuel : behind.length < fuel) :
    (a ∉ behind ∧ r.find a fuel (cell r.head before.length) = none) ∨
      ∃ front back, behind = front ++ a :: back ∧ a ∉ front ∧
        r.find a fuel (cell r.head before.length) =
          some (cell r.head (before ++ front).length) := by
  obtain ⟨fuel, rfl⟩ := Nat.exists_eq_succ_of_ne_zero (Nat.ne_of_gt (Nat.zero_lt_of_lt hfuel))
  induction behind generalizing before fuel with
  | nil =>
    rw [find, if_pos (by rw [h.tail, List.append_nil])]
    exact .inl ⟨List.not_mem_nil, rfl⟩
  | cons b behind ih =>
    have hroom := h.room
    simp only [List.length_append, List.length_cons] at hroom hfuel
    have hne : cell r.head before.length ≠ r.tail := by
      rw [h.tail]
      exact cell_ne (by simp) h.room
    have hb : r.cells (cell r.head before.length) = b := h.used _ b (by simp)
    rw [find, if_neg hne, hb]
    by_cases hba : b = a
    · subst hba
      rw [if_pos rfl]
      exact .inr ⟨[], behind, rfl, List.not_mem_nil, by simp⟩
    · rw [if_neg hba, advance_cell]
      obtain ⟨fuel, rfl⟩ := Nat.exists_eq_succ_of_ne_zero
        (Nat.ne_of_gt (Nat.zero_lt_of_lt (Nat.lt_of_succ_lt_succ hfuel)))
      have hsplit : r.Contains ((before ++ [b]) ++ behind) := by simpa using h
      have hnext := ih hsplit fuel (by omega)
      have hlength : (before ++ [b]).length = before.length + 1 := by simp
      rw [hlength] at hnext
      rcases hnext with ⟨hnot, hfind⟩ | ⟨front, back, rfl, hnot, hfind⟩
      · exact .inl ⟨by simp [Ne.symm hba, hnot], hfind⟩
      · refine .inr ⟨b :: front, back, rfl, by simp [Ne.symm hba, hnot], ?_⟩
        simpa using hfind

/-- The first `a` is removed, if there is one. -/
theorem Contains.remove (h : r.Contains items) (blank : α) :
    (a ∉ items ∧ r.remove a blank = none) ∨
      ∃ r', a ∈ items ∧ r.remove a blank = some r' ∧ r'.Contains (items.erase a) := by
  have hall : r.Contains ([] ++ items) := h
  rcases hall.find_spec (a := a) h.room with
    ⟨hnot, hfind⟩ | ⟨front, back, rfl, hnot, hfind⟩
  · rw [List.length_nil, cell_zero] at hfind
    exact .inl ⟨hnot, by rw [RingQueue.remove, hfind]; rfl⟩
  · rw [List.length_nil, cell_zero, List.nil_append] at hfind
    have hroom := h.room
    have htail := h.tail
    simp only [List.length_append, List.length_cons] at hroom htail
    have htail' : r.tail = cell r.head (front.length + 1 + back.length) := by
      rw [htail]
      congr 1
      omega
    have hfuel : back.length < n := by omega
    obtain ⟨cells, hcells, hholds⟩ := closeGap_spec h.used htail' (by omega) hfuel
    refine .inr ⟨_, by simp, by rw [RingQueue.remove, hfind]; rfl, ?_⟩
    rw [List.erase_append_right _ hnot, List.erase_cons_head]
    simp only [hcells]
    refine ⟨fun i item hi => ?_, by simp, by simp; omega⟩
    have hlt := (List.getElem?_eq_some_iff.mp hi).1
    rw [List.length_append] at hlt
    have hne : cell r.head i ≠ r.tail := by
      rw [htail]
      exact cell_ne (by omega) (by omega)
    simp only [Function.update_of_ne hne]
    exact hholds i item hi

end RingQueue

end OsdevArchive.Lib.RingBuffer
