import Mathlib.Data.BitVec

/-!
Buffers of bytes, as functions of the offset. A part of one is copied into another, and words
of 32 bits are read and written with the low byte first.
-/

namespace OsdevArchive.Lib.ByteBuffer

abbrev Byte := BitVec 8

abbrev Buffer := Nat → Byte

/-- `n` bytes of `src` from `p` on are copied to `dst` from `o` on. -/
def copy (dst : Buffer) (o : Nat) (src : Buffer) (p n : Nat) : Buffer := fun i =>
  if o ≤ i ∧ i < o + n then src (p + (i - o)) else dst i

/-- `n` bytes from `p` on. -/
def slice (b : Buffer) (p n : Nat) : List Byte := (List.range' p n).map b

/-- The word at an offset. -/
def word (b : Buffer) (o : Nat) : BitVec 32 := b (o + 3) ++ b (o + 2) ++ b (o + 1) ++ b o

/-- A byte of a word. -/
def byteOf (v : BitVec 32) (k : Nat) : Byte := v.extractLsb' (8 * k) 8

def putWord (b : Buffer) (o : Nat) (v : BitVec 32) : Buffer := copy b o (byteOf v) 0 4

variable {dst dst' src src' b c : Buffer} {o p n i k : Nat} {v : BitVec 32}

theorem copy_inside (hk : k < n) : copy dst o src p n (o + k) = src (p + k) := by
  unfold copy
  rw [if_pos ⟨Nat.le_add_right o k, Nat.add_lt_add_left hk o⟩, Nat.add_sub_cancel_left]

theorem copy_outside (h : i < o ∨ o + n ≤ i) : copy dst o src p n i = dst i := by
  apply if_neg
  omega

/-- A copy behind the first `o` bytes that are right makes `m` more of them right. -/
theorem copy_agrees {m : Nat} (hm : m ≤ n) (hbefore : ∀ k < o, dst k = b k)
    (hinside : ∀ l < m, src (p + l) = b (o + l)) : ∀ k < o + m, copy dst o src p n k = b k := by
  intro k hk
  rcases Nat.lt_or_ge k o with hlt | hge
  · rw [copy_outside (.inl hlt)]
    exact hbefore k hlt
  · obtain ⟨l, rfl⟩ := Nat.exists_eq_add_of_le hge
    rw [copy_inside (by omega)]
    exact hinside l (by omega)

theorem copy_zero : copy dst o src p 0 = dst := by
  funext i
  apply copy_outside
  omega

theorem word_congr (h : ∀ k < 4, b (o + k) = c (p + k)) : word b o = word c p := by
  unfold word
  rw [h 3 (by decide), h 2 (by decide), h 1 (by decide)]
  exact congrArg _ (h 0 (by decide))

theorem word_byteOf (v : BitVec 32) : word (byteOf v) 0 = v := by
  unfold word byteOf
  apply BitVec.eq_of_getLsbD_eq
  intro i hi
  simp only [BitVec.getLsbD_append, BitVec.getLsbD_extractLsb']
  split
  · simp only [*, decide_true, Bool.true_and]
    congr 1
    omega
  · split
    · simp only [*, decide_true, Bool.true_and]
      congr 1
      omega
    · split
      · simp only [*, decide_true, Bool.true_and]
        congr 1
        omega
      · have hlast : i - 8 - 8 - 8 < 8 := by omega
        simp only [hlast, decide_true, Bool.true_and]
        congr 1
        omega

/-- A word that was copied is read where it went. -/
theorem word_copy (hk : k + 4 ≤ n) : word (copy dst o src p n) (o + k) = word src (p + k) := by
  apply word_congr
  intro l hl
  rw [Nat.add_assoc, Nat.add_assoc]
  exact copy_inside (by omega)

theorem word_copy_outside (h : k + 4 ≤ o ∨ o + n ≤ k) :
    word (copy dst o src p n) k = word dst k := by
  apply word_congr
  intro l hl
  apply copy_outside
  omega

theorem word_putWord (b : Buffer) (o : Nat) (v : BitVec 32) : word (putWord b o v) o = v := by
  have hcopy : word (putWord b o v) (o + 0) = word (byteOf v) (0 + 0) :=
    word_copy (Nat.le_refl 4)
  exact hcopy.trans (word_byteOf v)

/-! ### Parts of a buffer as lists -/

theorem slice_length (b : Buffer) (p n : Nat) : (slice b p n).length = n := by
  unfold slice
  rw [List.length_map, List.length_range']

theorem slice_succ (b : Buffer) (p n : Nat) : slice b p (n + 1) = b p :: slice b (p + 1) n := rfl

theorem slice_congr {c : Buffer} {q : Nat} (h : ∀ i < n, b (p + i) = c (q + i)) :
    slice b p n = slice c q n := by
  induction n generalizing p q with
  | zero => rfl
  | succ n ih =>
    have hfirst := h 0 (Nat.succ_pos n)
    rw [slice_succ, slice_succ, Nat.add_zero, Nat.add_zero] at *
    rw [hfirst, ih fun i hi => ?_]
    have hnext := h (i + 1) (by omega)
    rwa [← Nat.add_assoc, ← Nat.add_assoc, Nat.add_right_comm, Nat.add_right_comm q] at hnext

/-- A byte of a part of a buffer. -/
theorem slice_getElem (h : i < n) (b : Buffer) (p : Nat) :
    (slice b p n)[i]? = some (b (p + i)) := by
  unfold slice
  rw [List.getElem?_map, List.getElem?_range' h, Nat.one_mul]
  rfl

theorem slice_getD (data : List Byte) : slice (fun i => data.getD i 0) 0 data.length = data := by
  apply List.ext_getElem?
  intro i
  obtain hlt | hle := Nat.lt_or_ge i data.length
  · rw [slice_getElem hlt, Nat.zero_add, List.getD_eq_getElem?_getD,
      List.getElem?_eq_getElem hlt, Option.getD_some]
  · rw [List.getElem?_eq_none (by rw [slice_length]; exact hle), List.getElem?_eq_none hle]

theorem slice_append (b : Buffer) (p m n : Nat) :
    slice b p (m + n) = slice b p m ++ slice b (p + m) n := by
  have hcut := @List.range'_append p m n 1
  rw [Nat.one_mul] at hcut
  unfold slice
  rw [← hcut, List.map_append]

theorem slice_concat (b : Buffer) (p n : Nat) : slice b p (n + 1) = slice b p n ++ [b (p + n)] :=
  slice_append b p n 1

theorem slice_take (h : m ≤ n) (b : Buffer) (p : Nat) : (slice b p n).take m = slice b p m := by
  obtain ⟨k, rfl⟩ := Nat.exists_eq_add_of_le h
  rw [slice_append, List.take_left' (slice_length b p m)]

theorem slice_drop (h : m ≤ n) (b : Buffer) (p : Nat) :
    (slice b p n).drop m = slice b (p + m) (n - m) := by
  obtain ⟨k, rfl⟩ := Nat.exists_eq_add_of_le h
  rw [slice_append, List.drop_left' (slice_length b p m), Nat.add_sub_cancel_left]

/-- What was copied is read where it went. -/
theorem slice_copy (dst src : Buffer) (o p n : Nat) :
    slice (copy dst o src p n) o n = slice src p n := by
  apply slice_congr
  intro i hi
  exact copy_inside hi

theorem slice_copy_before (h : p + m ≤ o) : slice (copy dst o src q n) p m = slice dst p m := by
  apply slice_congr
  intro i hi
  apply copy_outside
  omega

/-! ### Words that are added to -/

def addWord (b : Buffer) (o : Nat) (v : BitVec 32) : Buffer := putWord b o (word b o + v)

/-- One word after the other, each with what is added to it. -/
def addWords (b : Buffer) (ws : List (Nat × BitVec 32)) : Buffer :=
  ws.foldl (fun b w => addWord b w.1 w.2) b

/-- The words at two offsets have no byte in common. -/
def Apart (o p : Nat) : Prop := o + 4 ≤ p ∨ p + 4 ≤ o

instance instDecidableApart (o p : Nat) : Decidable (Apart o p) :=
  inferInstanceAs (Decidable (_ ∨ _))

variable {ws : List (Nat × BitVec 32)} {w : Nat × BitVec 32}

theorem word_addWord_apart (h : Apart o p) : word (addWord b o v) p = word b p := by
  apply word_copy_outside
  unfold Apart at h
  omega

theorem addWords_outside (h : ∀ w ∈ ws, i < w.1 ∨ w.1 + 4 ≤ i) : addWords b ws i = b i := by
  induction ws generalizing b with
  | nil => rfl
  | cons w ws ih =>
    have hrest : addWords (addWord b w.1 w.2) ws i = addWord b w.1 w.2 i :=
      ih fun v hv => h v (List.mem_cons_of_mem w hv)
    exact hrest.trans (copy_outside (h w List.mem_cons_self))

theorem word_addWords_apart (h : ∀ w ∈ ws, Apart w.1 p) : word (addWords b ws) p = word b p := by
  apply word_congr
  intro k hk
  apply addWords_outside
  intro w hw
  have hapart := h w hw
  unfold Apart at hapart
  omega

/-- Where no two words overlap, each one is added to once. -/
theorem word_addWords (h : ws.Pairwise fun v w => Apart v.1 w.1) (hw : w ∈ ws) :
    word (addWords b ws) w.1 = word b w.1 + w.2 := by
  induction ws generalizing b with
  | nil => exact absurd hw List.not_mem_nil
  | cons first ws ih =>
    obtain ⟨hfirst, hrest⟩ := List.pairwise_cons.mp h
    change word (addWords (addWord b first.1 first.2) ws) w.1 = _
    obtain rfl | hlater := List.mem_cons.mp hw
    · have hkept := word_addWords_apart (b := addWord b w.1 w.2) fun v hv => (hfirst v hv).symm
      rw [hkept]
      exact word_putWord b w.1 _
    · rw [ih hrest hlater, word_addWord_apart (hfirst w hlater)]

end OsdevArchive.Lib.ByteBuffer
