import Mathlib.Data.BitVec
import Mathlib.Data.List.Basic

/-!
Loops that fill an array group by group: the round `r` stores `k` values, those of the group `r`,
and leaves the rest of the array.
-/

namespace OsdevArchive.Lib.Groups

variable {β : Type*} {k n a : Nat} {round : (Nat → β) → Nat → Nat → β} {group : Nat → Nat → β}

/-- What the rounds leave: the groups, and behind them what was there. -/
theorem foldl_rounds (h : ∀ m r a, round m r a = if a / k = r then group r (a % k) else m a)
    (m : Nat → β) : (List.range n).foldl round m a =
      if a / k < n then group (a / k) (a % k) else m a := by
  induction n with
  | zero => rfl
  | succ n ih =>
    rw [List.range_succ, List.foldl_concat, h, ih]
    by_cases hlast : a / k = n
    · rw [if_pos hlast, if_pos (by omega), hlast]
    · rw [if_neg hlast]
      by_cases hbefore : a / k < n
      · rw [if_pos hbefore, if_pos (by omega)]
      · rw [if_neg hbefore, if_neg (by omega)]

/-- The place in its group of an element. -/
theorem div_mod_of_lt {r i : Nat} (hi : i < k) : (k * r + i) / k = r ∧ (k * r + i) % k = i := by
  constructor
  · rw [Nat.mul_add_div (by omega), Nat.div_eq_of_lt hi, Nat.add_zero]
  · rw [Nat.mul_add_mod, Nat.mod_eq_of_lt hi]

end OsdevArchive.Lib.Groups

/-!
Tables of numbers that are packed into bytes: the entry `k` has the bits from `stride * k` on, where
the lowest bit of the first byte is bit 0.
-/

namespace OsdevArchive.Lib.PackedBits

variable {stride width : Nat} {bytes : Nat → BitVec 8} {entries : List (BitVec 32)} {a b k : Nat}

def bitAt (bytes : Nat → BitVec 8) (i : Nat) : Bool := (bytes (i / 8)).getLsbD (i % 8)

/-- The bytes have the entries, with `width` bits each. -/
def Packed (stride width : Nat) (bytes : Nat → BitVec 8) (entries : List (BitVec 32)) : Prop :=
  ∀ k, (h : k < entries.length) → ∀ b < width,
    bitAt bytes (stride * k + b) = entries[k].getLsbD b

instance instDecidablePacked (stride width : Nat) (bytes : Nat → BitVec 8)
    (entries : List (BitVec 32)) : Decidable (Packed stride width bytes entries) :=
  inferInstanceAs (Decidable (∀ k, (h : k < entries.length) → ∀ b < width, _ = _))

/-- How many bytes `n` entries take. -/
def byteCount (stride n : Nat) : Nat := (stride * n + 7) / 8

/-- The bits of two bytes, the low one first. -/
theorem getLsbD_word (bytes : Nat → BitVec 8) (a : Nat) (hb : b < 16) :
    (bytes (a + 1) ++ bytes a).getLsbD b = bitAt bytes (8 * a + b) := by
  unfold bitAt
  rw [BitVec.getLsbD_append]
  by_cases hlow : b < 8
  · rw [if_pos hlow, show (8 * a + b) / 8 = a by omega, show (8 * a + b) % 8 = b by omega]
  · rw [if_neg hlow, show (8 * a + b) / 8 = a + 1 by omega,
      show (8 * a + b) % 8 = b - 8 by omega]

/-- A number with the bits of an entry is the entry. -/
theorem Packed.eq_entry (h : Packed stride width bytes entries) (hk : k < entries.length)
    {x : BitVec 32} (hx : ∀ b < width, x.getLsbD b = bitAt bytes (stride * k + b))
    (hfit : x.toNat < 2 ^ width) (hentry : entries[k].toNat < 2 ^ width) : x = entries[k] := by
  have hhigh : ∀ (y : BitVec 32), y.toNat < 2 ^ width → ∀ b, width ≤ b → y.getLsbD b = false := by
    intro y hy b hb
    exact Nat.testBit_lt_two_pow (hy.trans_le (Nat.pow_le_pow_right (by decide) hb))
  apply BitVec.eq_of_getLsbD_eq
  intro b _
  rcases Nat.lt_or_ge b width with hlt | hge
  · rw [hx b hlt, h k hk b hlt]
  · rw [hhigh x hfit b hge, hhigh _ hentry b hge]

end OsdevArchive.Lib.PackedBits
