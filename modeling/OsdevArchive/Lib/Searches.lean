import Mathlib.Data.List.Basic
import Mathlib.Data.Nat.Find
import Mathlib.Order.Defs.LinearOrder

/-!
The first among the least. A search through a list for an admissible element with the smallest
key, which gives up its candidate only for a strictly smaller one, finds the first element among
those with the smallest key. The candidate of such a search is described by the part of the list
that it has seen, and moves with every further element by one of three rules.
-/

namespace OsdevArchive.Lib.FirstLeast

variable {β κ : Type*} [Preorder κ] {ok : β → Prop} {key : β → κ} {pre post : List β} {b c : β}

/-- `b`, between `pre` and `post`, is the first among the admissible elements of the smallest
key. -/
structure IsFirstLeast (ok : β → Prop) (key : β → κ) (pre : List β) (b : β)
    (post : List β) : Prop where
  admissible : ok b
  before : ∀ c ∈ pre, ok c → key b < key c
  behind : ∀ c ∈ post, ok c → key b ≤ key c

/-- The first admissible element is a candidate. -/
theorem IsFirstLeast.first (hnone : ∀ c ∈ pre, ¬ok c) (hb : ok b) :
    IsFirstLeast ok key pre b [] where
  admissible := hb
  before c hc hok := absurd hok (hnone c hc)
  behind _ hc := absurd hc List.not_mem_nil

/-- An element that is not smaller leaves the candidate. -/
theorem IsFirstLeast.keep (h : IsFirstLeast ok key pre b post)
    (hc : ok c → key b ≤ key c) : IsFirstLeast ok key pre b (post ++ [c]) where
  admissible := h.admissible
  before := h.before
  behind d hd hok := by
    rcases List.mem_append.mp hd with hd | hd
    · exact h.behind d hd hok
    · obtain rfl := List.mem_singleton.mp hd
      exact hc hok

/-- A smaller element takes its place. -/
theorem IsFirstLeast.give (h : IsFirstLeast ok key pre b post) (hc : ok c)
    (hlt : key c < key b) : IsFirstLeast ok key (pre ++ b :: post) c [] where
  admissible := hc
  before d hd hok := by
    rcases List.mem_append.mp hd with hd | hd
    · exact lt_trans hlt (h.before d hd hok)
    · rcases List.mem_cons.mp hd with rfl | hd
      · exact hlt
      · exact lt_of_lt_of_le hlt (h.behind d hd hok)
  behind d hd := absurd hd List.not_mem_nil

/-- No other element is less. -/
theorem IsFirstLeast.le (h : IsFirstLeast ok key pre b post) (hc : c ∈ pre ++ b :: post)
    (hok : ok c) : key b ≤ key c := by
  rcases List.mem_append.mp hc with hc | hc
  · exact le_of_lt (h.before c hc hok)
  · rcases List.mem_cons.mp hc with rfl | hc
    · exact le_refl _
    · exact h.behind c hc hok

end OsdevArchive.Lib.FirstLeast

/-!
The first index that meets a condition, as what a search along a table is to return.
-/

namespace OsdevArchive.Lib.FirstMatch

variable {p q : Nat → Prop} {o : Option Nat} {k : Nat}

/-- The first index that meets the condition; nothing if there is none. -/
def Finds (p : Nat → Prop) : Option Nat → Prop
  | none => ∀ k, ¬ p k
  | some k => p k ∧ ∀ j < k, ¬ p j

theorem Finds.congr (h : Finds p o) (hpq : ∀ k, p k ↔ q k) : Finds q o := by
  have heq : p = q := funext fun k => propext (hpq k)
  rw [← heq]
  exact h

/-- Where a search for `q` has passed nothing that meets `p`, the next thing that meets either
of them decides. -/
theorem exists_least (h : p k ∨ q k) : ∃ m, (p m ∨ q m) ∧ ∀ j < m, ¬ p j ∧ ¬ q j := by
  classical
  have hex : ∃ m, p m ∨ q m := ⟨k, h⟩
  refine ⟨Nat.find hex, Nat.find_spec hex, fun j hj => ?_⟩
  exact not_or.mp (Nat.find_min hex hj)

/-- A search for `q` finds what one for `p` is to find exactly if everything that the two
conditions disagree on stands behind something that meets both. -/
theorem Finds.iff_preceded (h : Finds q o) :
    Finds p o ↔ ∀ k, ¬ (p k ↔ q k) → ∃ j < k, p j ∧ q j := by
  constructor
  · intro hp k hk
    cases o with
    | none => exact absurd (iff_of_false (hp k) (h k)) hk
    | some m =>
      refine ⟨m, ?_, hp.1, h.1⟩
      rcases Nat.lt_trichotomy k m with hlt | rfl | hgt
      · exact absurd (iff_of_false (hp.2 k hlt) (h.2 k hlt)) hk
      · exact absurd (iff_of_true hp.1 h.1) hk
      · exact hgt
  · intro hall
    -- the least index that meets one of the conditions meets both
    have hboth : ∀ m, (∀ j < m, ¬ p j ∧ ¬ q j) → (p m ↔ q m) := by
      intro m hleast
      by_contra hdiff
      obtain ⟨j, hj, hpj, -⟩ := hall m hdiff
      exact (hleast j hj).1 hpj
    cases o with
    | none =>
      intro k hk
      obtain ⟨m, hm, hleast⟩ := exists_least (q := q) (.inl hk)
      have hq : q m := hm.elim (hboth m hleast).mp id
      exact h m hq
    | some k =>
      obtain ⟨m, hm, hleast⟩ := exists_least (p := p) (.inr h.1)
      have hq : q m := hm.elim (hboth m hleast).mp id
      have heq : m = k := by
        rcases Nat.lt_trichotomy m k with hlt | heq | hgt
        · exact absurd hq (h.2 m hlt)
        · exact heq
        · exact absurd h.1 (hleast k hgt).2
      subst heq
      exact ⟨(hboth m hleast).mpr hq, fun j hj => (hleast j hj).1⟩

end OsdevArchive.Lib.FirstMatch
