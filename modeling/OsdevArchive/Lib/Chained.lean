import Mathlib.Data.List.Basic
import Mathlib.Data.Set.Defs

/-!
Contents kept in blocks of one size that are chained: `next` gives the block
behind a block, and `stop` tells the links that end a chain. A position in the
contents is then the index of a block and a place inside of it.
-/

namespace OsdevArchive.Lib.Chained

variable {κ β : Type*} {next : κ → κ} {stop : κ → Prop}

/-- `Chain next stop c cs`: the links from `c` on lead through the blocks `cs` to an end. -/
inductive Chain (next : κ → κ) (stop : κ → Prop) : κ → List κ → Prop where
  | nil {c : κ} : stop c → Chain next stop c []
  | cons {c : κ} {cs : List κ} : ¬ stop c → Chain next stop (next c) cs →
      Chain next stop c (c :: cs)

theorem Chain.eq_nil {c : κ} {cs : List κ} (h : Chain next stop c cs) (hc : stop c) :
    cs = [] := by
  cases h with
  | nil _ => rfl
  | cons hgo _ => exact absurd hc hgo

theorem Chain.eq_cons {c : κ} {cs : List κ} (h : Chain next stop c cs) (hc : ¬ stop c) :
    ∃ tail, cs = c :: tail ∧ Chain next stop (next c) tail := by
  cases h with
  | nil hstop => exact absurd hstop hc
  | cons _ htail => exact ⟨_, rfl, htail⟩

theorem Chain.stop_iff {c : κ} {cs : List κ} (h : Chain next stop c cs) :
    stop c ↔ cs = [] := by
  constructor
  · exact h.eq_nil
  · intro hnil
    cases h with
    | nil hstop => exact hstop
    | cons _ _ => cases hnil

/-- The blocks of a chain are determined by its first link. -/
theorem Chain.unique {c : κ} {cs ds : List κ} (h : Chain next stop c cs)
    (k : Chain next stop c ds) : cs = ds := by
  induction h generalizing ds with
  | nil hstop => exact (k.eq_nil hstop).symm
  | cons hgo _ ih =>
    obtain ⟨tail, rfl, htail⟩ := k.eq_cons hgo
    rw [ih htail]

/-- The links of other blocks do not matter. -/
theorem Chain.congr {next' : κ → κ} {c : κ} {cs : List κ} (h : Chain next stop c cs)
    (hsame : ∀ d ∈ cs, next' d = next d) : Chain next' stop c cs := by
  induction h with
  | nil hstop => exact .nil hstop
  | @cons c cs hgo _ ih =>
    refine .cons hgo ?_
    rw [hsame c List.mem_cons_self]
    exact ih fun d hd => hsame d (List.mem_cons_of_mem c hd)

/-- A link into a chain tells how many blocks are left. -/
theorem Chain.drop_inj {c : κ} {cs : List κ} {i j : Nat} (h : Chain next stop c (cs.drop i))
    (k : Chain next stop c (cs.drop j)) (hi : i < cs.length) : i = j := by
  have hsame := congrArg List.length (h.unique k)
  simp only [List.length_drop] at hsame
  omega

/-- From each of its blocks on a chain is a chain. -/
theorem Chain.behind {c d : κ} {cs ds : List κ} (h : Chain next stop c (cs ++ d :: ds)) :
    Chain next stop d (d :: ds) := by
  induction cs generalizing c with
  | nil =>
    cases h with
    | cons hgo htail => exact .cons hgo htail
  | cons _ cs ih =>
    cases h with
    | cons _ htail => exact ih htail

/-- No block is in a chain twice. -/
theorem Chain.nodup {c : κ} {cs : List κ} (h : Chain next stop c cs) : cs.Nodup := by
  induction h with
  | nil _ => exact .nil
  | @cons c cs hgo htail ih =>
    refine List.nodup_cons.mpr ⟨fun hc => ?_, ih⟩
    obtain ⟨as, bs, rfl⟩ := List.append_of_mem hc
    have hlength := congrArg List.length (htail.behind.unique (.cons hgo htail))
    simp only [List.length_cons, List.length_append] at hlength
    omega

/-- Other ends, where the blocks of the chain are none of them. -/
theorem Chain.imp_stop {stop' : κ → Prop} {c : κ} {cs : List κ} (h : Chain next stop c cs)
    (hgo : ∀ d ∈ cs, ¬stop' d) (hstop : ∀ d, stop d → stop' d) : Chain next stop' c cs := by
  induction h with
  | nil hc => exact .nil (hstop _ hc)
  | cons _ _ ih =>
    exact .cons (hgo _ List.mem_cons_self) (ih fun d hd => hgo d (List.mem_cons_of_mem _ hd))

/-- From a block of a chain a chain leads on. -/
theorem Chain.of_mem {c d : κ} {cs : List κ} (h : Chain next stop c cs) (hd : d ∈ cs) :
    ∃ ds, Chain next stop d (d :: ds) := by
  obtain ⟨as, bs, rfl⟩ := List.append_of_mem hd
  exact ⟨bs, h.behind⟩

theorem Chain.go {c d : κ} {cs : List κ} (h : Chain next stop c cs) (hd : d ∈ cs) : ¬stop d := by
  obtain ⟨ds, hchain⟩ := h.of_mem hd
  cases hchain with
  | cons hgo _ => exact hgo

/-- No block of a chain is its own successor. -/
theorem Chain.next_ne {c d : κ} {cs : List κ} (h : Chain next stop c cs) (hd : d ∈ cs) :
    next d ≠ d := by
  obtain ⟨ds, hchain⟩ := h.of_mem hd
  intro hself
  cases hchain with
  | cons hgo htail =>
    rw [hself] at htail
    have hlength := congrArg List.length (htail.unique (.cons hgo (hself.symm ▸ htail)))
    simp only [List.length_cons] at hlength
    omega

/-- Where a measure falls from block to block, the chain is not longer than it. -/
theorem Chain.length_le (μ : κ → Nat) {c : κ} {cs : List κ} (h : Chain next stop c cs)
    (hless : ∀ d ∈ cs, μ (next d) < μ d) : cs.length ≤ μ c := by
  induction h with
  | nil _ => exact Nat.zero_le _
  | @cons c cs _ _ ih =>
    have hfirst := hless c List.mem_cons_self
    have hrest := ih fun d hd => hless d (List.mem_cons_of_mem c hd)
    rw [List.length_cons]
    omega

/-! ### What the links lead to -/

/-- `Reached next stop c d`: the links lead from `c` to `d`, and there is no end before `d`. -/
inductive Reached (next : κ → κ) (stop : κ → Prop) : κ → κ → Prop where
  | here {c : κ} : Reached next stop c c
  | link {c d : κ} : ¬stop (next c) → Reached next stop (next c) d → Reached next stop c d

/-- A set that the links do not leave holds all that they lead to. -/
theorem Reached.mem {c d : κ} {S : Set κ} (h : Reached next stop c d) (hc : c ∈ S)
    (hclosed : ∀ e ∈ S, ¬stop (next e) → next e ∈ S) : d ∈ S := by
  induction h with
  | here => exact hc
  | link hgo _ ih => exact ih (hclosed _ hc hgo)

theorem Reached.snoc {c d : κ} (h : Reached next stop c d) (hgo : ¬stop (next d)) :
    Reached next stop c (next d) := by
  induction h with
  | here => exact .link hgo .here
  | link hc _ ih => exact .link hc (ih hgo)

/-- From its first block the links lead to the blocks of a chain. -/
theorem Chain.reached_iff {c d : κ} {cs : List κ} (h : Chain next stop c cs) (hc : ¬stop c) :
    Reached next stop c d ↔ d ∈ cs := by
  induction h with
  | nil hstop => exact absurd hstop hc
  | @cons c cs _ htail ih =>
    rw [List.mem_cons]
    constructor
    · intro hd
      cases hd with
      | here => exact Or.inl rfl
      | link hgo hd => exact Or.inr ((ih hgo).mp hd)
    · rintro (rfl | hd)
      · exact .here
      · have hgo : ¬stop (next c) := fun hstop => by
          rw [htail.eq_nil hstop] at hd
          cases hd
        exact .link hgo ((ih hgo).mpr hd)

section Walk

variable [DecidablePred stop]

/-- At most `n` links from `c` on. -/
def walk (next : κ → κ) (stop : κ → Prop) [DecidablePred stop] : Nat → κ → κ
  | 0, c => c
  | n + 1, c => if stop c then c else walk next stop n (next c)

theorem Chain.walk {c : κ} {cs : List κ} (h : Chain next stop c cs) (n : Nat) :
    Chain next stop (walk next stop n c) (cs.drop n) := by
  induction n generalizing c cs with
  | zero => exact h
  | succ n ih =>
    unfold Chained.walk
    split
    · rename_i hstop
      rw [h.eq_nil hstop]
      exact .nil hstop
    · rename_i hgo
      obtain ⟨tail, rfl, htail⟩ := h.eq_cons hgo
      exact ih htail

/-! ### Loops along a chain -/

/-- A loop that visits the blocks from `c` on; `none` if it does not end within `fuel` rounds. -/
def pursue (next : κ → κ) (stop : κ → Prop) [DecidablePred stop] {σ : Type*} (visit : σ → κ → σ) :
    Nat → κ → σ → Option σ
  | 0, _, _ => none
  | fuel + 1, c, s =>
      if stop c then some s else pursue next stop visit fuel (next c) (visit s c)

/-- The first `n` blocks of a chain. -/
def visited (next : κ → κ) (stop : κ → Prop) [DecidablePred stop] : Nat → κ → List κ
  | 0, _ => []
  | n + 1, c => if stop c then [] else c :: visited next stop n (next c)

variable {σ : Type*} {visit : σ → κ → σ}

/-- The loop visits all blocks of the chain. -/
theorem Chain.pursue {c : κ} {cs : List κ} {fuel : Nat} (h : Chain next stop c cs)
    (hfuel : cs.length < fuel) (s : σ) :
    pursue next stop visit fuel c s = some (cs.foldl visit s) := by
  induction h generalizing fuel s with
  | nil hstop =>
    obtain ⟨fuel, rfl⟩ : ∃ k, fuel = k + 1 := ⟨fuel - 1, by omega⟩
    rw [Chained.pursue, if_pos hstop]
    rfl
  | @cons c cs hgo _ ih =>
    rw [List.length_cons] at hfuel
    obtain ⟨fuel, rfl⟩ : ∃ k, fuel = k + 1 := ⟨fuel - 1, by omega⟩
    rw [Chained.pursue, if_neg hgo, ih (by omega), List.foldl_cons]

/-- A loop that ends has gone through a chain. -/
theorem chain_of_pursue {c : κ} {fuel : Nat} {s t : σ}
    (h : pursue next stop visit fuel c s = some t) :
    ∃ cs, Chain next stop c cs ∧ t = cs.foldl visit s := by
  induction fuel generalizing c s with
  | zero => cases h
  | succ fuel ih =>
    rw [pursue] at h
    split at h
    · next hstop => exact ⟨[], .nil hstop, (Option.some.inj h).symm⟩
    · next hgo =>
      obtain ⟨cs, hchain, rfl⟩ := ih h
      exact ⟨c :: cs, .cons hgo hchain, rfl⟩

theorem Chain.visited {c : κ} {cs : List κ} {n : Nat} (h : Chain next stop c cs)
    (hn : cs.length ≤ n) : visited next stop n c = cs := by
  induction h generalizing n with
  | @nil c hstop =>
    cases n with
    | zero => rfl
    | succ n => exact if_pos hstop
  | @cons c cs hgo _ ih =>
    rw [List.length_cons] at hn
    obtain ⟨n, rfl⟩ : ∃ k, n = k + 1 := ⟨n - 1, by omega⟩
    rw [Chained.visited, if_neg hgo, ih (by omega)]

theorem go_of_mem_visited {c d : κ} {n : Nat} (hd : d ∈ visited next stop n c) : ¬stop d := by
  induction n generalizing c with
  | zero => cases hd
  | succ n ih =>
    rw [visited] at hd
    split at hd
    · cases hd
    · next hgo =>
      rcases List.mem_cons.mp hd with rfl | hd
      · exact hgo
      · exact ih hd

/-- Where a measure falls from block to block, the blocks form a chain. -/
theorem chain_of_measure (μ : κ → Nat) {c : κ} {n : Nat} (hn : μ c ≤ n)
    (hstop : ∀ d, μ d = 0 → stop d)
    (hless : ∀ d ∈ visited next stop n c, μ (next d) < μ d) :
    Chain next stop c (visited next stop n c) := by
  induction n generalizing c with
  | zero => exact .nil (hstop c (Nat.le_zero.mp hn))
  | succ n ih =>
    rw [visited] at hless ⊢
    split
    · next hc => exact .nil hc
    · next hc =>
      rw [if_neg hc] at hless
      have hfirst := hless c List.mem_cons_self
      exact .cons hc (ih (by omega) fun d hd => hless d (List.mem_cons_of_mem c hd))

end Walk

/-! ### Contents -/

variable (block : κ → List β)

/-- The blocks of a chain, one behind the other. -/
def contents (cs : List κ) : List β := cs.flatMap block

@[simp] theorem contents_nil : contents block [] = [] := rfl

@[simp] theorem contents_cons (c : κ) (cs : List κ) :
    contents block (c :: cs) = block c ++ contents block cs := rfl

variable {block} {size : Nat}

theorem contents_length (hsize : ∀ c, (block c).length = size) (cs : List κ) :
    (contents block cs).length = cs.length * size := by
  induction cs with
  | nil => simp
  | cons c cs ih => simp [ih, hsize, Nat.add_mul, Nat.add_comm]

/-- Behind `i` blocks of the contents come those of the other blocks. -/
theorem contents_drop (hsize : ∀ c, (block c).length = size) (cs : List κ) (i : Nat) :
    (contents block cs).drop (i * size) = contents block (cs.drop i) := by
  induction i generalizing cs with
  | zero => simp
  | succ i ih =>
    cases cs with
    | nil => simp
    | cons c cs =>
      rw [contents_cons, Nat.add_mul, Nat.one_mul, Nat.add_comm, ← List.drop_drop,
        List.drop_left' (hsize c), List.drop_succ_cons]
      exact ih cs

theorem contents_take_blocks (hsize : ∀ c, (block c).length = size) (cs : List κ) (i : Nat) :
    (contents block cs).take (i * size) = contents block (cs.take i) := by
  induction i generalizing cs with
  | zero => simp
  | succ i ih =>
    cases cs with
    | nil => simp
    | cons c cs =>
      rw [contents_cons, Nat.add_mul, Nat.one_mul, Nat.add_comm, List.take_succ_cons,
        contents_cons, ← ih cs, List.take_append, List.take_of_length_le, hsize]
      · rw [Nat.add_sub_cancel_left]
      · rw [hsize]
        exact Nat.le_add_right _ _

/-- The first `n` items are whole blocks and the first items of one more. -/
theorem contents_take (hsize : ∀ c, (block c).length = size) (cs : List κ) (n : Nat) :
    (contents block cs).take n = contents block (cs.take (n / size)) ++
      (contents block (cs.drop (n / size))).take (n % size) := by
  rw [← contents_take_blocks hsize, ← contents_drop hsize, ← List.take_add, Nat.mul_comm,
    Nat.div_add_mod]

/-- A place in the contents is a place in the block that holds it. -/
theorem contents_drop_place (hsize : ∀ c, (block c).length = size) (cs : List κ) (o : Nat) :
    (contents block cs).drop o = (contents block (cs.drop (o / size))).drop (o % size) := by
  rw [← contents_drop hsize, List.drop_drop, Nat.mul_comm, Nat.div_add_mod]

end OsdevArchive.Lib.Chained
