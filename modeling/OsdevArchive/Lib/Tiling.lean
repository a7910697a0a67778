import Mathlib.Data.List.Basic

/-!
Tilings of an interval of addresses by consecutive pieces. A piece `b : β`
covers `len b` addresses; a list of pieces laid from address `a` covers the
interval `[a, a + extent bs)`. `places` lists every piece with its first
address. All facts a boundary-tag allocator needs about positions, splitting
and joining of neighbours follow from the decomposition at one piece,
`mem_places_iff`.
-/

namespace OsdevArchive.Lib.Tiling

variable {β : Type*} (len : β → Nat)

/-- The number of addresses a list of pieces covers. -/
def extent : List β → Nat
  | [] => 0
  | b :: bs => len b + extent bs

/-- Each piece with its first address, the list being laid from `a`. -/
def places : Nat → List β → List (Nat × β)
  | _, [] => []
  | a, b :: bs => (a, b) :: places (a + len b) bs

variable {len}

@[simp] theorem extent_nil : extent len [] = 0 := rfl

@[simp] theorem extent_cons (b : β) (bs : List β) :
    extent len (b :: bs) = len b + extent len bs := rfl

@[simp] theorem extent_append (bs cs : List β) :
    extent len (bs ++ cs) = extent len bs + extent len cs := by
  induction bs with
  | nil => simp
  | cons b bs ih => simp [ih, Nat.add_assoc]

@[simp] theorem places_nil (a : Nat) : places len a [] = [] := rfl

@[simp] theorem places_cons (a : Nat) (b : β) (bs : List β) :
    places len a (b :: bs) = (a, b) :: places len (a + len b) bs := rfl

@[simp] theorem places_append (a : Nat) (bs cs : List β) :
    places len a (bs ++ cs) = places len a bs ++ places len (a + extent len bs) cs := by
  induction bs generalizing a with
  | nil => simp
  | cons b bs ih => simp [ih, Nat.add_assoc]

/-- A placed piece splits the list at that piece; its address is the start plus
what the pieces before it cover. -/
theorem mem_places_iff {a x : Nat} {b : β} {bs : List β} :
    (x, b) ∈ places len a bs ↔
      ∃ pre post, bs = pre ++ b :: post ∧ x = a + extent len pre := by
  constructor
  · intro h
    induction bs generalizing a with
    | nil => simp at h
    | cons c bs ih =>
        rcases List.mem_cons.mp h with heq | htail
        · obtain ⟨rfl, rfl⟩ := Prod.mk.inj heq
          exact ⟨[], bs, rfl, rfl⟩
        · obtain ⟨pre, post, rfl, hx⟩ := ih htail
          exact ⟨c :: pre, post, rfl, by simp only [extent_cons]; omega⟩
  · rintro ⟨pre, post, rfl, rfl⟩
    simp

/-- Every piece lies inside the interval that the list covers. -/
theorem place_bounds {a x : Nat} {b : β} {bs : List β} (h : (x, b) ∈ places len a bs) :
    a ≤ x ∧ x + len b ≤ a + extent len bs := by
  obtain ⟨pre, post, rfl, rfl⟩ := mem_places_iff.mp h
  simp only [extent_append, extent_cons]
  omega

/-- As many pieces fit as the covered interval has multiples of a lower bound
on their length. -/
theorem length_mul_le_extent {k : Nat} {bs : List β} (hk : ∀ b ∈ bs, k ≤ len b) :
    bs.length * k ≤ extent len bs := by
  induction bs with
  | nil => simp
  | cons b bs ih =>
      have hb := hk b (by simp)
      have ht := ih fun c hc => hk c (by simp [hc])
      simp only [List.length_cons, extent_cons, Nat.add_mul, Nat.one_mul]
      omega

theorem extent_le_length_mul {k : Nat} {bs : List β} (hk : ∀ b ∈ bs, len b ≤ k) :
    extent len bs ≤ bs.length * k := by
  induction bs with
  | nil => simp
  | cons b bs ih =>
      have hb := hk b (by simp)
      have ht := ih fun c hc => hk c (by simp [hc])
      simp only [List.length_cons, extent_cons, Nat.add_mul, Nat.one_mul]
      omega

theorem dvd_extent {k : Nat} {bs : List β} (hk : ∀ b ∈ bs, k ∣ len b) :
    k ∣ extent len bs := by
  induction bs with
  | nil => simp
  | cons b bs ih =>
      exact Nat.dvd_add (hk b (by simp)) (ih fun c hc => hk c (by simp [hc]))

end OsdevArchive.Lib.Tiling
