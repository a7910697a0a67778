import Mathlib.Data.List.Chain
import Mathlib.Data.List.Nodup
import Mathlib.Logic.Function.Basic

/-!
Circular doubly linked lists. The links are two functions `next` and `prev` on
addresses, and `CircList next prev es` says that the distinct entries `es`, in
this order, are linked to a circle in both directions. A circle is invariant
under rotation, so every edit needs to be understood at the first entry only:
`CircList.unlink` takes an entry out, `CircList.insert` puts one in front of the
first, which is the last place of the circle.
-/

namespace OsdevArchive.Lib.Circular

variable {P : Type*}

/-- `b` follows `a`. -/
def Linked (next prev : P → P) (a b : P) : Prop := next a = b ∧ prev b = a

/-- The entries `es` form a circle. -/
structure CircList (next prev : P → P) (es : List P) : Prop where
  nodup : es.Nodup
  closed : (es ++ es.head?.toList).IsChain (Linked next prev)

variable {next prev next' prev' : P → P} {a b e x : P} {es fs : List P}

/-- A chain reads `next` of all entries but the last, and `prev` of all but the
first. -/
theorem isChain_linked_congr (hnext : ∀ a ∈ es.dropLast, next' a = next a)
    (hprev : ∀ b ∈ es.tail, prev' b = prev b) (h : es.IsChain (Linked next prev)) :
    es.IsChain (Linked next' prev') := by
  induction es with
  | nil => exact .nil
  | cons a es ih =>
      cases es with
      | nil => exact .singleton a
      | cons b es =>
          obtain ⟨⟨hn, hp⟩, htail⟩ := List.isChain_cons_cons.mp h
          refine List.isChain_cons_cons.mpr ⟨⟨?_, ?_⟩, ih ?_ ?_ htail⟩
          · rw [hnext a (by simp), hn]
          · rw [hprev b (by simp), hp]
          · exact fun c hc => hnext c (by simp [hc])
          · exact fun c hc => hprev c (by simp [List.mem_of_mem_tail hc])

theorem circList_nil : CircList next prev [] := ⟨List.nodup_nil, .nil⟩

/-- A circle depends on the links of its own entries only. -/
theorem CircList.congr (h : CircList next prev es) (hnext : ∀ a ∈ es, next' a = next a)
    (hprev : ∀ a ∈ es, prev' a = prev a) : CircList next' prev' es := by
  have hmem : ∀ a ∈ es ++ es.head?.toList, a ∈ es := by
    intro a ha
    rcases List.mem_append.mp ha with ha | ha
    · exact ha
    · exact List.mem_of_mem_head? (by simpa using ha)
  refine ⟨h.nodup, isChain_linked_congr (fun a ha => ?_) (fun b hb => ?_) h.closed⟩
  · exact hnext a (hmem a (List.dropLast_subset _ ha))
  · exact hprev b (hmem b (List.mem_of_mem_tail hb))

/-- The circle may be read from any of its entries on. -/
theorem CircList.rotate (h : CircList next prev (es ++ fs)) : CircList next prev (fs ++ es) := by
  refine ⟨(List.perm_append_comm.nodup_iff).mp h.nodup, ?_⟩
  have hclosed := h.closed
  cases es with
  | nil => simpa using hclosed
  | cons a es =>
      cases fs with
      | nil => simpa using hclosed
      | cons b fs =>
          simp only [List.append_assoc, List.head?_append, List.head?_cons, Option.some_or,
            Option.toList_some] at hclosed ⊢
          rw [List.isChain_append, List.isChain_append] at hclosed ⊢
          obtain ⟨hes, ⟨hfs, -, hlast⟩, hseam⟩ := hclosed
          exact ⟨hfs, ⟨hes, .singleton b, by simpa using hseam⟩, by simpa using hlast⟩

theorem CircList.next_cons_cons (h : CircList next prev (a :: b :: es)) : next a = b :=
  (List.isChain_cons_cons.mp h.closed).1.1

theorem CircList.next_singleton (h : CircList next prev [a]) : next a = a :=
  (List.isChain_cons_cons.mp h.closed).1.1

theorem CircList.prev_cons_concat (h : CircList next prev (a :: es ++ [b])) : prev a = b := by
  have hclosed := h.closed
  simp only [List.cons_append, List.head?_cons, Option.toList_some] at hclosed
  rw [← List.cons_append, ← List.cons_append, List.append_assoc, List.isChain_append] at hclosed
  exact (List.isChain_cons_cons.mp hclosed.2.1).1.2

theorem CircList.prev_singleton (h : CircList next prev [a]) : prev a = a :=
  (List.isChain_cons_cons.mp h.closed).1.2

theorem circList_singleton (hnext : next a = a) (hprev : prev a = a) : CircList next prev [a] :=
  ⟨List.nodup_singleton a, List.isChain_cons_cons.mpr ⟨⟨hnext, hprev⟩, .singleton a⟩⟩

/-- Linking a new entry between the last entry and the first. -/
theorem CircList.insert (h : CircList next prev (a :: es)) (hx : x ∉ a :: es)
    (hnext : ∀ c ∈ a :: es, c ≠ prev a → next' c = next c)
    (hprev : ∀ c ∈ a :: es, c ≠ a → prev' c = prev c)
    (hlastNext : next' (prev a) = x) (hlastPrev : prev' x = prev a)
    (hfirstNext : next' x = a) (hfirstPrev : prev' a = x) :
    CircList next' prev' (a :: es ++ [x]) := by
  have hnodup : (a :: es ++ [x]).Nodup := by
    rw [← List.concat_eq_append]
    exact h.nodup.concat hx
  obtain ⟨init, hinit⟩ : ∃ init, a :: es = init ++ [prev a] := by
    rcases List.eq_nil_or_concat es with rfl | ⟨init, last, rfl⟩
    · exact ⟨[], by rw [h.prev_singleton]; rfl⟩
    · rw [List.concat_eq_append, ← List.cons_append] at h ⊢
      exact ⟨a :: init, by rw [h.prev_cons_concat]⟩
  refine ⟨hnodup, ?_⟩
  simp only [List.cons_append, List.head?_cons, Option.toList_some, List.append_assoc]
  rw [← List.cons_append, List.isChain_append]
  refine ⟨isChain_linked_congr (fun c hc => ?_) (fun c hc => ?_) h.closed.left_of_append,
    List.isChain_cons_cons.mpr ⟨⟨hfirstNext, hfirstPrev⟩, .singleton a⟩, ?_⟩
  · have hmem : c ∈ init := by simpa [hinit] using hc
    refine hnext c (List.dropLast_subset _ hc) ?_
    rintro rfl
    have hdup := h.nodup
    rw [hinit] at hdup
    exact List.disjoint_of_nodup_append hdup hmem (by simp)
  · have hmem : c ∈ es := by simpa using hc
    refine hprev c (by simp [hmem]) ?_
    rintro rfl
    exact (List.nodup_cons.mp h.nodup).1 hmem
  · intro c hc d hd
    obtain rfl : prev a = c := by simpa [hinit] using hc
    obtain rfl : x = d := by simpa using hd
    exact ⟨hlastNext, hlastPrev⟩

theorem CircList.next_middle (h : CircList next prev (es ++ a :: b :: fs)) : next a = b := by
  have hrot : CircList next prev (a :: b :: (fs ++ es)) := by simpa using h.rotate
  exact hrot.next_cons_cons

/-- The last entry is followed by the first. -/
theorem CircList.next_last (h : CircList next prev (a :: es)) (hlast : a :: es = fs ++ [b]) :
    next b = a := by
  rw [hlast] at h
  have hrot : CircList next prev ([b] ++ fs) := h.rotate
  cases fs with
  | nil =>
      obtain ⟨rfl, -⟩ : a = b ∧ es = [] := by simpa using hlast
      exact hrot.next_singleton
  | cons c fs =>
      obtain ⟨rfl, -⟩ : a = c ∧ es = fs ++ [b] := by simpa using hlast
      exact hrot.next_cons_cons

theorem CircList.next_mem (h : CircList next prev es) (ha : a ∈ es) : next a ∈ es := by
  obtain ⟨pre, post, rfl⟩ := List.append_of_mem ha
  have hrot : CircList next prev (a :: post ++ pre) := h.rotate
  cases hrest : post ++ pre with
  | nil =>
      rw [List.cons_append, hrest] at hrot
      rw [hrot.next_singleton]
      exact ha
  | cons b rest =>
      rw [List.cons_append, hrest] at hrot
      rw [hrot.next_cons_cons]
      have hb : b ∈ post ++ pre := hrest ▸ List.mem_cons_self
      simp only [List.mem_append, List.mem_cons] at hb ⊢
      tauto

theorem CircList.prev_mem (h : CircList next prev es) (ha : a ∈ es) : prev a ∈ es := by
  obtain ⟨pre, post, rfl⟩ := List.append_of_mem ha
  have hrot : CircList next prev (a :: post ++ pre) := h.rotate
  rcases List.eq_nil_or_concat (post ++ pre) with hrest | ⟨init, b, hrest⟩
  · rw [List.cons_append, hrest] at hrot
    rw [hrot.prev_singleton]
    exact ha
  · rw [List.cons_append, hrest, List.concat_eq_append, ← List.cons_append] at hrot
    rw [hrot.prev_cons_concat]
    have hb : b ∈ post ++ pre := by simp [hrest]
    simp only [List.mem_append, List.mem_cons] at hb ⊢
    tauto

/-- `prev` leads back from where `next` leads. -/
theorem CircList.prev_next (h : CircList next prev es) (ha : a ∈ es) : prev (next a) = a := by
  obtain ⟨pre, post, rfl⟩ := List.append_of_mem ha
  have hrot : CircList next prev (a :: post ++ pre) := h.rotate
  cases hrest : post ++ pre with
  | nil =>
      rw [List.cons_append, hrest] at hrot
      rw [hrot.next_singleton, hrot.prev_singleton]
  | cons b rest =>
      rw [List.cons_append, hrest] at hrot
      rw [hrot.next_cons_cons]
      exact (List.isChain_cons_cons.mp hrot.closed).1.2

/-- `next` leads back from where `prev` leads. -/
theorem CircList.next_prev (h : CircList next prev es) (ha : a ∈ es) : next (prev a) = a := by
  obtain ⟨pre, post, rfl⟩ := List.append_of_mem ha
  have hrot : CircList next prev (a :: post ++ pre) := h.rotate
  rcases List.eq_nil_or_concat (post ++ pre) with hrest | ⟨init, b, hrest⟩
  · rw [List.cons_append, hrest] at hrot
    rw [hrot.prev_singleton, hrot.next_singleton]
  · rw [List.cons_append, hrest, List.concat_eq_append, ← List.cons_append] at hrot
    rw [hrot.prev_cons_concat]
    apply hrot.next_last (List.cons_append).symm

/-- From the first entry, `next` runs through the entries. -/
theorem CircList.iterate_next (h : CircList next prev (a :: es)) {i : Nat}
    (hi : i < (a :: es).length) : next^[i] a = (a :: es)[i] := by
  induction i with
  | zero => rfl
  | succ i ih =>
      have hchain := List.isChain_iff_getElem.mp h.closed.left_of_append
      rw [Function.iterate_succ_apply', ih (by omega)]
      exact (hchain i hi).1

/-- Behind the last entry, `next` is back at the first. -/
theorem CircList.iterate_length (h : CircList next prev (a :: es)) :
    next^[(a :: es).length] a = a := by
  have hlast : es.length < (a :: es).length := by simp
  rw [List.length_cons, Function.iterate_succ_apply', h.iterate_next hlast]
  apply h.next_last
  rw [List.take_append_getElem hlast, List.take_of_length_le (by simp)]

variable [DecidableEq P]

/-- Linking the neighbours of an entry to each other takes it out. -/
theorem CircList.unlink (h : CircList next prev (e :: es)) :
    CircList (Function.update next (prev e) (next e)) (Function.update prev (next e) (prev e))
      es := by
  rcases List.eq_nil_or_concat es with rfl | ⟨init, last, hes⟩
  · exact circList_nil
  cases es with
  | nil => exact circList_nil
  | cons first rest =>
  have hnodup := (List.nodup_cons.mp h.nodup).2
  have hnext : next e = first := h.next_cons_cons
  have hprev : prev e = last := by
    have h' := h
    rw [hes, List.concat_eq_append, ← List.cons_append] at h'
    exact h'.prev_cons_concat
  refine ⟨hnodup, ?_⟩
  have hchain : (first :: rest).IsChain (Linked next prev) :=
    (List.isChain_cons_cons.mp h.closed).2.left_of_append
  rw [hnext, hprev]
  simp only [List.head?_cons, Option.toList_some]
  rw [List.isChain_append]
  refine ⟨isChain_linked_congr (fun a ha => ?_) (fun b hb => ?_) hchain, .singleton first, ?_⟩
  · have hinit : a ∈ init := by simpa [hes] using ha
    have hne : a ≠ last := by
      rintro rfl
      rw [hes, List.concat_eq_append] at hnodup
      exact List.disjoint_of_nodup_append hnodup hinit (by simp)
    rw [Function.update_of_ne hne]
  · have hne : b ≠ first := by
      rintro rfl
      exact (List.nodup_cons.mp hnodup).1 hb
    rw [Function.update_of_ne hne]
  · intro c hc d hd
    obtain rfl : last = c := by simpa [hes] using hc
    obtain rfl : first = d := by simpa using hd
    exact ⟨Function.update_self .., Function.update_self ..⟩

end OsdevArchive.Lib.Circular
