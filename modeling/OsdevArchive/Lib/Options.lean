import OsdevArchive.Lib.ByteBuffer

/-!
Options in a packet: each has a byte for its type, a byte for its length, and the rest. A loop that
walks over them adds the length byte of each to its place, whatever the byte says.
-/

namespace OsdevArchive.Lib.Options

open OsdevArchive.Lib.ByteBuffer

variable {σ : Type} (len : Nat → Nat) (stop : Nat) (body : Nat → σ → σ)

/-- `for (t = t0; t < stop; t += len (t)) body (t);`, for `fuel` tests at most. -/
def walk : Nat → Nat → σ → Option σ
  | 0, _, _ => none
  | fuel + 1, t, s => if t < stop then walk fuel (t + len t) (body t s) else some s

/-- The first `n` places of the walk from `t` on. -/
def visits : Nat → Nat → List Nat
  | 0, _ => []
  | n + 1, t => if t < stop then t :: visits n (t + len t) else []

/-- The places of the walk from the start. -/
def places : List Nat := visits len stop stop 0

variable {len stop body} {fuel n t u : Nat} {s r : σ} {before after : List Nat}

theorem visits_cons (h : t < stop) :
    visits len stop (n + 1) t = t :: visits len stop n (t + len t) := by
  rw [visits, if_pos h]

theorem visits_nil (h : stop ≤ t) : visits len stop n t = [] := by
  cases n with
  | zero => rfl
  | succ n => rw [visits, if_neg h.not_gt]

theorem lt_of_mem_visits (h : u ∈ visits len stop n t) : u < stop := by
  induction n generalizing t with
  | zero => exact absurd h List.not_mem_nil
  | succ n ih =>
    rcases Nat.lt_or_ge t stop with hlt | hle
    · rw [visits_cons hlt] at h
      rcases List.mem_cons.mp h with rfl | hrest
      · exact hlt
      · exact ih hrest
    · rw [visits_nil hle] at h
      exact absurd h List.not_mem_nil

/-- Where no length is zero, the walk ends, and has made one step at each place. -/
theorem walk_eq_some (hlen : ∀ u ∈ visits len stop n t, len u ≠ 0) (hn : stop ≤ t + n)
    (hfuel : n < fuel) :
    walk len stop body fuel t s = some ((visits len stop n t).foldl (fun s u => body u s) s) := by
  induction n generalizing fuel t s with
  | zero =>
    obtain ⟨fuel, rfl⟩ := Nat.exists_eq_succ_of_ne_zero (Nat.ne_of_gt hfuel)
    rw [walk, if_neg (by omega)]
    rfl
  | succ n ih =>
    obtain ⟨fuel, rfl⟩ := Nat.exists_eq_succ_of_ne_zero (Nat.ne_of_gt (Nat.zero_lt_of_lt hfuel))
    rw [walk]
    rcases Nat.lt_or_ge t stop with hlt | hle
    · rw [visits_cons hlt] at hlen ⊢
      have hpos := hlen t List.mem_cons_self
      rw [if_pos hlt]
      exact ih (fun u hu => hlen u (List.mem_cons_of_mem t hu)) (by omega) (by omega)
    · rw [if_neg hle.not_gt, visits_nil hle]
      rfl

/-- A length of zero holds the walk at its place. -/
theorem walk_stuck (ht : t < stop) (hlen : len t = 0) (fuel : Nat) (s : σ) :
    walk len stop body fuel t s = none := by
  induction fuel generalizing s with
  | zero => rfl
  | succ fuel ih =>
    rw [walk, if_pos ht, hlen]
    exact ih (body t s)

theorem walk_eq_none (hu : u ∈ visits len stop n t) (hlen : len u = 0) (fuel : Nat) (s : σ) :
    walk len stop body fuel t s = none := by
  induction n generalizing fuel t s with
  | zero => exact absurd hu List.not_mem_nil
  | succ n ih =>
    have ht : t < stop := by
      by_contra hge
      rw [visits_nil (Nat.not_lt.mp hge)] at hu
      exact absurd hu List.not_mem_nil
    rw [visits_cons ht] at hu
    rcases List.mem_cons.mp hu with rfl | hrest
    · exact walk_stuck ht hlen fuel s
    · cases fuel with
      | zero => rfl
      | succ fuel =>
        rw [walk, if_pos ht]
        exact ih hrest fuel (body t s)

theorem walk_le {fuel' : Nat} (h : walk len stop body fuel t s = some r) (hle : fuel ≤ fuel') :
    walk len stop body fuel' t s = some r := by
  induction fuel generalizing fuel' t s with
  | zero => cases h
  | succ fuel ih =>
    obtain ⟨k, rfl⟩ := Nat.exists_eq_add_of_le hle
    rw [Nat.add_right_comm]
    rw [walk] at h ⊢
    by_cases ht : t < stop
    · rw [if_pos ht] at h ⊢
      exact ih h (Nat.le_add_right fuel k)
    · rw [if_neg ht] at h ⊢
      exact h

/-- The walk ends exactly if no length on its way is zero. -/
theorem walk_iff (len : Nat → Nat) (stop : Nat) (body : Nat → σ → σ) (s : σ) (P : σ → Prop) :
    (∃ fuel r, walk len stop body fuel 0 s = some r ∧ P r) ↔
      (∀ u ∈ places len stop, len u ≠ 0) ∧
        P ((places len stop).foldl (fun s u => body u s) s) := by
  constructor
  · rintro ⟨fuel, r, hr, hP⟩
    have hlen : ∀ u ∈ places len stop, len u ≠ 0 := by
      intro u hu hzero
      rw [walk_eq_none hu hzero] at hr
      cases hr
    refine ⟨hlen, ?_⟩
    have hsome : walk len stop body (stop + 1 + fuel) 0 s = _ :=
      walk_eq_some hlen (Nat.le_add_left stop 0) (by omega)
    have hmore := walk_le hr (Nat.le_add_left fuel (stop + 1))
    obtain rfl := Option.some.inj (hmore.symm.trans hsome)
    exact hP
  · rintro ⟨hlen, hP⟩
    exact ⟨stop + 1, _, walk_eq_some hlen (Nat.le_add_left stop 0) (Nat.lt_succ_self stop), hP⟩

/-- The place behind one of the walk is on it too, if it is below the end. -/
theorem mem_visits_next (hlen : ∀ u ∈ visits len stop n t, len u ≠ 0) (hn : stop ≤ t + n)
    (hu : u ∈ visits len stop n t) (hnext : u + len u < stop) :
    u + len u ∈ visits len stop n t := by
  induction n generalizing t with
  | zero => exact absurd hu List.not_mem_nil
  | succ n ih =>
    have ht : t < stop := by
      by_contra hge
      rw [visits_nil (Nat.not_lt.mp hge)] at hu
      exact absurd hu List.not_mem_nil
    rw [visits_cons ht] at hlen hu ⊢
    have hpos := hlen t List.mem_cons_self
    apply List.mem_cons_of_mem
    rcases List.mem_cons.mp hu with rfl | hrest
    · obtain ⟨m, rfl⟩ : ∃ m, n = m + 1 := ⟨n - 1, by omega⟩
      rw [visits_cons hnext]
      exact List.mem_cons_self
    · exact ih (fun u hu => hlen u (List.mem_cons_of_mem t hu)) (by omega) hrest

/-! ### Options one after the other -/

/-- The length byte is that of the whole. -/
def Formed (p : List Byte) : Prop := ∃ b, p[1]? = some b ∧ b.toNat = p.length

variable {p q : List Byte} {ps qs : List (List Byte)}

theorem Formed.two_le (h : Formed p) : 2 ≤ p.length := by
  obtain ⟨b, hb, -⟩ := h
  exact (List.getElem?_eq_some_iff.mp hb).1

theorem Formed.append_inj {x y : List Byte} (hp : Formed p) (hq : Formed q)
    (h : p ++ x = q ++ y) : p = q ∧ x = y := by
  obtain ⟨b, hb, hlen⟩ := hp
  obtain ⟨b', hb', hlen'⟩ := hq
  have hbyte : b = b' := by
    have hget := congrArg (·[1]?) h
    have hone := (List.getElem?_eq_some_iff.mp hb).1
    have hone' := (List.getElem?_eq_some_iff.mp hb').1
    rw [List.getElem?_append_left hone, List.getElem?_append_left hone', hb, hb'] at hget
    exact Option.some.inj hget
  exact List.append_inj h (by rw [← hlen, ← hlen', hbyte])

/-- Options in a row can be taken apart in one way only. -/
theorem flatten_inj (hps : ∀ p ∈ ps, Formed p) (hqs : ∀ q ∈ qs, Formed q)
    (h : ps.flatten = qs.flatten) : ps = qs := by
  induction ps generalizing qs with
  | nil =>
    cases qs with
    | nil => rfl
    | cons q qs =>
      have hlen := (hqs q List.mem_cons_self).two_le
      have hnil := congrArg List.length h
      rw [List.flatten_cons, List.length_append] at hnil
      change 0 = _ at hnil
      omega
  | cons p ps ih =>
    cases qs with
    | nil =>
      have hlen := (hps p List.mem_cons_self).two_le
      have hnil := congrArg List.length h
      rw [List.flatten_cons, List.length_append] at hnil
      change _ = 0 at hnil
      omega
    | cons q qs =>
      rw [List.flatten_cons, List.flatten_cons] at h
      obtain ⟨rfl, hrest⟩ :=
        (hps p List.mem_cons_self).append_inj (hqs q List.mem_cons_self) h
      rw [ih (fun p hp => hps p (List.mem_cons_of_mem _ hp))
        (fun q hq => hqs q (List.mem_cons_of_mem _ hq)) hrest]

end OsdevArchive.Lib.Options
