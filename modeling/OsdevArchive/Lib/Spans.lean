import Mathlib.Data.List.DropRight

/-!
The contents of an interval of a memory as a list. A search in the memory that stops at a
condition is a `takeWhile` of the list, or a `rdropWhile` where it comes from the end.
-/

namespace OsdevArchive.Lib.Spans

variable {β : Type*}

/-- A part of a list up to where a condition stops. -/
theorem takeWhile_append_stop {part rest : List β} {f : β → Bool}
    (hpart : ∀ c ∈ part, f c = true) (hrest : ∀ c ∈ rest.head?, f c = false) :
    (part ++ rest).takeWhile f = part := by
  rw [List.takeWhile_append_of_pos hpart]
  cases rest with
  | nil => exact List.append_nil _
  | cons c cs =>
    rw [List.takeWhile_cons_of_neg (by simp [hrest c rfl]), List.append_nil]

/-- The `n` values from `p` on. -/
def span (memory : Nat → β) (p n : Nat) : List β := (List.range n).map fun k => memory (p + k)

variable {memory memory' : Nat → β} {p m n : Nat}

@[simp] theorem span_length : (span memory p n).length = n := by simp [span]

@[simp] theorem span_zero : span memory p 0 = [] := rfl

theorem span_succ : span memory p (n + 1) = span memory p n ++ [memory (p + n)] := by
  simp [span, List.range_succ]

theorem span_add : span memory p (m + n) = span memory p m ++ span memory (p + m) n := by
  induction n with
  | zero => simp
  | succ n ih => rw [← Nat.add_assoc, span_succ, ih, span_succ, List.append_assoc, Nat.add_assoc]

theorem mem_span {c : β} (h : c ∈ span memory p n) : ∃ k < n, c = memory (p + k) := by
  obtain ⟨k, hk, rfl⟩ := List.mem_map.mp h
  exact ⟨k, List.mem_range.mp hk, rfl⟩

theorem span_congr (h : ∀ k < n, memory (p + k) = memory' (p + k)) :
    span memory p n = span memory' p n :=
  List.map_congr_left fun k hk => h k (List.mem_range.mp hk)

/-- A search from the beginning. -/
theorem takeWhile_span {f : β → Bool} (hmn : m ≤ n) (hgo : ∀ k < m, f (memory (p + k)) = true)
    (hstop : m < n → f (memory (p + m)) = false) :
    (span memory p n).takeWhile f = span memory p m := by
  obtain ⟨d, rfl⟩ := Nat.exists_eq_add_of_le hmn
  rw [span_add]
  apply takeWhile_append_stop
  · intro c hc
    obtain ⟨k, hk, rfl⟩ := mem_span hc
    exact hgo k hk
  · intro c hc
    cases d with
    | zero => cases hc
    | succ d =>
      obtain rfl : memory (p + m) = c := by simpa [span, List.range_succ_eq_map] using hc
      exact hstop (by omega)

/-- A search from the end. -/
theorem rdropWhile_span {f : β → Bool} (hmn : m ≤ n)
    (hgo : ∀ k, m ≤ k → k < n → f (memory (p + k)) = true)
    (hstop : ∀ k, m = k + 1 → f (memory (p + k)) = false) :
    (span memory p n).rdropWhile f = span memory p m := by
  induction n with
  | zero =>
    obtain rfl : m = 0 := Nat.le_zero.mp hmn
    simp
  | succ n ih =>
    obtain hless | rfl := Nat.lt_or_eq_of_le hmn
    · have hle := Nat.le_of_lt_succ hless
      rw [span_succ, List.rdropWhile_concat_pos _ _ _ (hgo n hle (Nat.lt_succ_self n))]
      exact ih hle fun k hk hlt => hgo k hk (Nat.lt_succ_of_lt hlt)
    · rw [span_succ]
      exact List.rdropWhile_concat_neg _ _ _ (by simp [hstop n rfl])

end OsdevArchive.Lib.Spans
