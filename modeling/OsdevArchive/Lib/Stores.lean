import Mathlib.Data.BitVec
import Mathlib.Logic.Function.Basic

/-!
Pieces of a memory with addresses modulo `2 ^ w`. A piece gives the values of a range of
addresses, which may go on at zero; pieces are written one after the other.
-/

namespace OsdevArchive.Lib.Stores

variable {w : Nat} {α : Type*}

structure Piece (w : Nat) (α : Type*) where
  start : BitVec w
  len : Nat
  value : Nat → α

/-- A memory with the piece written over it. -/
def Piece.write (p : Piece w α) (m : BitVec w → α) (x : BitVec w) : α :=
  if (x - p.start).toNat < p.len then p.value (x - p.start).toNat else m x

/-- Several pieces, in order. -/
def writeAll (ps : List (Piece w α)) (m : BitVec w → α) : BitVec w → α :=
  ps.foldl (fun m p => p.write m) m

variable {p : Piece w α} {ps qs : List (Piece w α)} {m m' : BitVec w → α} {a x : BitVec w}
  {n k : Nat} {v : Nat → α}

theorem Piece.write_apply_congr (h : m x = m' x) : p.write m x = p.write m' x := by
  unfold Piece.write
  rw [h]

theorem writeAll_apply_congr (h : m x = m' x) : writeAll ps m x = writeAll ps m' x := by
  induction ps generalizing m m' with
  | nil => exact h
  | cons p ps ih => exact ih (Piece.write_apply_congr h)

theorem writeAll_append : writeAll (ps ++ qs) m = writeAll qs (writeAll ps m) :=
  List.foldl_append ..

/-- How far an address is behind the start of a piece that it is in. -/
theorem toNat_sub_add {i : Nat} (hi : i < 2 ^ w) : (a + BitVec.ofNat w i - a).toNat = i := by
  rw [BitVec.add_comm, BitVec.add_sub_cancel, BitVec.toNat_ofNat, Nat.mod_eq_of_lt hi]

theorem Piece.write_start {i : Nat} (hi : i < 2 ^ w) (hlen : i < p.len) :
    p.write m (p.start + BitVec.ofNat w i) = p.value i := by
  unfold Piece.write
  rw [toNat_sub_add hi, if_pos hlen]

/-- An address outside of a piece. -/
theorem Piece.write_of_forall_ne (h : ∀ i < p.len, x ≠ p.start + BitVec.ofNat w i) :
    p.write m x = m x := by
  apply if_neg
  intro hin
  apply h _ hin
  rw [BitVec.ofNat_toNat, BitVec.setWidth_eq, BitVec.add_comm, BitVec.sub_add_cancel]

/-- The piece ends before the addresses go on at zero. -/
def Piece.Bounded (p : Piece w α) : Prop := p.start.toNat + p.len ≤ 2 ^ w

/-- One of the pieces ends before the other. -/
def Piece.Apart (p q : Piece w α) : Prop :=
  p.start.toNat + p.len ≤ q.start.toNat ∨ q.start.toNat + q.len ≤ p.start.toNat

instance Piece.instDecidableBounded : Decidable p.Bounded := inferInstanceAs (Decidable (_ ≤ _))

instance Piece.instDecidableApart (p q : Piece w α) : Decidable (p.Apart q) :=
  inferInstanceAs (Decidable (_ ∨ _))

theorem Piece.toNat_add {i : Nat} (h : p.Bounded) (hi : i < p.len) :
    (p.start + BitVec.ofNat w i).toNat = p.start.toNat + i := by
  unfold Piece.Bounded at h
  rw [BitVec.toNat_add, BitVec.toNat_ofNat, Nat.add_mod_mod, Nat.mod_eq_of_lt (by omega)]

theorem Piece.Apart.ne {q : Piece w α} (h : p.Apart q) (hp : p.Bounded) (hq : q.Bounded)
    {i j : Nat} (hi : i < p.len) (hj : j < q.len) :
    p.start + BitVec.ofNat w i ≠ q.start + BitVec.ofNat w j := by
  intro heq
  have hsame := congrArg BitVec.toNat heq
  rw [Piece.toNat_add hp hi, Piece.toNat_add hq hj] at hsame
  rcases h with h | h <;> omega

theorem writeAll_of_forall_ne (h : ∀ p ∈ ps, ∀ i < p.len, x ≠ p.start + BitVec.ofNat w i) :
    writeAll ps m x = m x := by
  induction ps generalizing m with
  | nil => rfl
  | cons p ps ih =>
    have hrest := ih (m := p.write m) fun q hq => h q (List.mem_cons_of_mem p hq)
    exact hrest.trans (Piece.write_of_forall_ne (h p (List.mem_cons_self ..)))

/-- Pieces that are apart are all there in the end. -/
theorem writeAll_of_mem {i : Nat} (hbounded : ∀ q ∈ ps, q.Bounded)
    (hapart : ps.Pairwise Piece.Apart) (hp : p ∈ ps) (hi : i < p.len) :
    writeAll ps m (p.start + BitVec.ofNat w i) = p.value i := by
  induction ps generalizing m with
  | nil => cases hp
  | cons q ps ih =>
    obtain ⟨hq, hrest⟩ := List.forall_mem_cons.mp hbounded
    obtain ⟨hfirst, hlater⟩ := List.pairwise_cons.mp hapart
    rcases List.mem_cons.mp hp with rfl | hp
    · have hw : i < 2 ^ w := by
        unfold Piece.Bounded at hq
        omega
      have hkept : writeAll ps (p.write m) (p.start + BitVec.ofNat w i) =
          p.write m (p.start + BitVec.ofNat w i) := by
        apply writeAll_of_forall_ne
        intro r hr j hj
        exact (hfirst r hr).ne hq (hrest r hr) hi hj
      exact hkept.trans (Piece.write_start hw hi)
    · exact ih hrest hlater hp

theorem write_zero : (Piece.mk a 0 v).write m = m := by
  funext x
  exact if_neg (Nat.not_lt_zero _)

theorem write_one : (Piece.mk a 1 v).write m = Function.update m a (v 0) := by
  funext x
  unfold Piece.write
  dsimp only
  rw [Function.update_apply]
  by_cases hx : x = a
  · subst hx
    rw [BitVec.sub_self, BitVec.toNat_zero, if_pos Nat.one_pos, if_pos rfl]
  · rw [if_neg hx, if_neg]
    intro hin
    apply hx
    have hzero : x - a = 0#w := BitVec.eq_of_toNat_eq (by rw [BitVec.toNat_zero]; omega)
    exact sub_eq_zero.mp hzero

/-- A piece is written in two parts. -/
theorem write_add (h : n + k ≤ 2 ^ w) :
    (Piece.mk a (n + k) v).write m =
      (Piece.mk (a + BitVec.ofNat w n) k fun i => v (n + i)).write ((Piece.mk a n v).write m) := by
  funext x
  have hsub : x - (a + BitVec.ofNat w n) = x - a - BitVec.ofNat w n := sub_add_eq_sub_sub ..
  unfold Piece.write
  dsimp only
  rw [hsub]
  generalize x - a = d
  have hd := d.isLt
  rcases Nat.lt_or_ge d.toNat n with hlow | hhigh
  · have hpast : ¬ (d - BitVec.ofNat w n).toNat < k := by
      rw [BitVec.toNat_sub, BitVec.toNat_ofNat]
      rcases Nat.eq_zero_or_pos k with rfl | hk
      · exact Nat.not_lt_zero _
      · rw [Nat.mod_eq_of_lt (by omega : n < 2 ^ w), Nat.mod_eq_of_lt (by omega)]
        omega
    rw [if_neg hpast, if_pos hlow, if_pos (by omega)]
  · have hle : BitVec.ofNat w n ≤ d := by
      rw [BitVec.le_def, BitVec.toNat_ofNat, Nat.mod_eq_of_lt (by omega)]
      exact hhigh
    have hdiff : (d - BitVec.ofNat w n).toNat = d.toNat - n := by
      rw [BitVec.toNat_sub_of_le hle, BitVec.toNat_ofNat, Nat.mod_eq_of_lt (by omega)]
    rw [hdiff, if_neg (Nat.not_lt.mpr hhigh)]
    rcases Nat.lt_or_ge d.toNat (n + k) with hin | hout
    · rw [if_pos hin, if_pos (by omega), Nat.add_sub_cancel' hhigh]
    · rw [if_neg (Nat.not_lt.mpr hout), if_neg (by omega)]

end OsdevArchive.Lib.Stores
