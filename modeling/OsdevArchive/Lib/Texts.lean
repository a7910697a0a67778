import Mathlib.Data.List.Basic

/-!
Texts of lines. The last line of a text may stand without its separator; a text with
nothing in it has no line.
-/

namespace OsdevArchive.Lib.Lines

variable {α : Type*} [DecidableEq α]

def lines (sep : α) (text : List α) : List (List α) :=
  if text = [] then [] else text.splitOn sep

/-- The text in which each line has its separator. -/
def terminated (sep : α) (ls : List (List α)) : List α := ls.flatMap (· ++ [sep])

variable {sep : α} {text l : List α} {ls : List (List α)}

omit [DecidableEq α] in
theorem terminated_cons : terminated sep (l :: ls) = l ++ [sep] ++ terminated sep ls := by
  rw [terminated, terminated, List.flatMap_cons]

omit [DecidableEq α] in
theorem terminated_eq_nil_iff : terminated sep ls = [] ↔ ls = [] := by
  cases ls with
  | nil => exact iff_of_true rfl rfl
  | cons l ls => simp [terminated_cons]

omit [DecidableEq α] in
theorem terminated_eq_intercalate (hls : ls ≠ []) :
    terminated sep ls = [sep].intercalate ls ++ [sep] := by
  induction ls with
  | nil => exact absurd rfl hls
  | cons l ls ih =>
    rw [terminated_cons]
    cases ls with
    | nil => simp [terminated]
    | cons l' ls =>
      rw [ih (List.cons_ne_nil l' ls), List.intercalate_cons_cons]
      simp only [List.append_assoc]

theorem not_mem_of_mem_splitOn (h : l ∈ text.splitOn sep) : sep ∉ l := by
  induction text generalizing l with
  | nil =>
    obtain rfl := List.mem_singleton.mp h
    exact List.not_mem_nil
  | cons a text ih =>
    rw [List.splitOn_cons_eq_if_modifyHead] at h
    split at h
    · obtain rfl | hmem := List.mem_cons.mp h
      · exact List.not_mem_nil
      · exact ih hmem
    · rename_i hne
      obtain ⟨first, others, hsplit⟩ :=
        List.exists_cons_of_ne_nil (List.splitOn_ne_nil sep text)
      rw [hsplit, List.modifyHead_cons] at h
      rw [hsplit] at ih
      obtain rfl | hmem := List.mem_cons.mp h
      · intro hsep
        obtain rfl | hsep := List.mem_cons.mp hsep
        · exact hne BEq.rfl
        · exact ih List.mem_cons_self hsep
      · exact ih (List.mem_cons_of_mem _ hmem)

/-- A text has the lines of a list if it is put together from them and none of them holds a
separator. -/
theorem lines_eq_iff (hls : ls ≠ []) (hne : ∀ l ∈ ls, l ≠ []) :
    lines sep text = ls ↔ text ++ [sep] = terminated sep ls ∧ ∀ l ∈ ls, sep ∉ l := by
  rw [terminated_eq_intercalate hls, List.append_left_inj]
  constructor
  · intro h
    rw [lines] at h
    split at h
    · exact absurd h.symm hls
    · subst h
      exact ⟨(List.intercalate_splitOn sep).symm, fun l hl => not_mem_of_mem_splitOn hl⟩
  · rintro ⟨rfl, hsep⟩
    rw [lines, if_neg, List.splitOn_intercalate sep hsep hls]
    intro hnil
    have hsplit := List.splitOn_intercalate sep hsep hls
    rw [hnil, List.splitOn_nil] at hsplit
    exact hne [] (by rw [← hsplit]; exact List.mem_singleton_self _) rfl

omit [DecidableEq α] in
/-- A separator near the start of a text comes from a short line. -/
theorem exists_short_of_terminated {front rest : List α}
    (h : terminated sep ls = front ++ rest) (hfront : sep ∈ front) (hsep : ∀ l ∈ ls, sep ∉ l) :
    ∃ l ∈ ls, l.length < front.length := by
  cases ls with
  | nil =>
    have hnil := (List.append_eq_nil_iff.mp h.symm).1
    exact absurd (hnil ▸ hfront) List.not_mem_nil
  | cons l ls =>
    refine ⟨l, List.mem_cons_self, ?_⟩
    by_contra hlong
    rw [terminated_cons, List.append_assoc] at h
    have hpre : front <+: l := by
      apply List.prefix_of_prefix_length_le ⟨rest, h.symm⟩ (List.prefix_append l _)
      exact Nat.le_of_not_lt hlong
    exact hsep l List.mem_cons_self (hpre.subset hfront)

end OsdevArchive.Lib.Lines

/-!
Text that is made of tokens between separators. `Separated` reads a list of tokens and what is
left behind the last of them; the longest possible tokens are read, and so a text is read in one
way only.
-/

namespace OsdevArchive.Lib.Tokens

variable {α : Type*}

/-- A token is made of at least one character that tokens are made of. -/
def IsToken (tok : α → Bool) (d : List α) : Prop := d ≠ [] ∧ ∀ a ∈ d, tok a = true

/-- The text does not go on with a character of a token. -/
def Stops (tok : α → Bool) (rest : List α) : Prop := ∀ a ∈ rest.head?, tok a = false

/-- `cp` consists of the tokens, separated, and of the rest. -/
inductive Separated (tok : α → Bool) (sep : α) : List α → List (List α) → List α → Prop where
  | last {d rest : List α} : IsToken tok d → Stops tok rest → (∀ a ∈ rest.head?, a ≠ sep) →
      Separated tok sep (d ++ rest) [d] rest
  | cons {d cp rest : List α} {ds : List (List α)} : IsToken tok d →
      Separated tok sep cp ds rest → Separated tok sep (d ++ sep :: cp) (d :: ds) rest

variable {tok : α → Bool} {sep : α} {d cp rest : List α} {ds : List (List α)}

theorem takeWhile_append_stops (hd : ∀ a ∈ d, tok a = true) (hrest : Stops tok rest) :
    (d ++ rest).takeWhile tok = d := by
  rw [List.takeWhile_append_of_pos hd]
  cases rest with
  | nil => exact List.append_nil d
  | cons a rest =>
    have ha : ¬tok a = true := by
      rw [hrest a rfl]
      exact Bool.false_ne_true
    rw [List.takeWhile_cons_of_neg ha, List.append_nil]

theorem dropWhile_append_stops (hd : ∀ a ∈ d, tok a = true) (hrest : Stops tok rest) :
    (d ++ rest).dropWhile tok = rest := by
  rw [List.dropWhile_append_of_pos hd]
  cases rest with
  | nil => rfl
  | cons a rest =>
    apply List.dropWhile_cons_of_neg
    rw [hrest a rfl]
    exact Bool.false_ne_true

theorem stops_cons {a : α} (h : tok a = false) : Stops tok (a :: rest) := by
  intro b hb
  obtain rfl : a = b := Option.some.inj hb
  exact h

theorem stops_dropWhile (cp : List α) : Stops tok (cp.dropWhile tok) := by
  intro a ha
  obtain ⟨tail, htail⟩ : ∃ tail, cp.dropWhile tok = a :: tail := List.head?_eq_some_iff.mp ha
  have hne : cp.dropWhile tok ≠ [] := by
    rw [htail]
    exact List.cons_ne_nil a tail
  have hhead := List.head_dropWhile_not tok hne
  simpa [htail] using hhead

/-- The first token, and what stands behind it. -/
theorem separated_iff (hsep : tok sep = false) : Separated tok sep cp ds rest ↔
    IsToken tok (cp.takeWhile tok) ∧
      ((ds = [cp.takeWhile tok] ∧ rest = cp.dropWhile tok ∧ ∀ a ∈ rest.head?, a ≠ sep) ∨
        ∃ cp' ds', ds = cp.takeWhile tok :: ds' ∧ cp.dropWhile tok = sep :: cp' ∧
          Separated tok sep cp' ds' rest) := by
  constructor
  · intro h
    cases h with
    | last hd hstops hne =>
      rw [takeWhile_append_stops hd.2 hstops, dropWhile_append_stops hd.2 hstops]
      exact ⟨hd, Or.inl ⟨rfl, rfl, hne⟩⟩
    | cons hd htail =>
      rw [takeWhile_append_stops hd.2 (stops_cons hsep),
        dropWhile_append_stops hd.2 (stops_cons hsep)]
      exact ⟨hd, Or.inr ⟨_, _, rfl, rfl, htail⟩⟩
  · rintro ⟨hd, ⟨rfl, rfl, hne⟩ | ⟨cp', ds', rfl, hdrop, htail⟩⟩
    · have hlast := Separated.last hd (stops_dropWhile cp) hne
      rwa [List.takeWhile_append_dropWhile] at hlast
    · have hcons := Separated.cons hd htail
      rwa [← hdrop, List.takeWhile_append_dropWhile] at hcons

/-- A text is read in one way. -/
theorem Separated.unique {ds' : List (List α)} {rest' : List α} (hsep : tok sep = false)
    (h : Separated tok sep cp ds rest) (h' : Separated tok sep cp ds' rest') :
    ds = ds' ∧ rest = rest' := by
  induction h generalizing ds' rest' with
  | last hd hstops hne =>
    obtain ⟨-, ⟨rfl, rfl, -⟩ | ⟨cp', ds', rfl, hdrop, -⟩⟩ := (separated_iff hsep).mp h'
    · rw [takeWhile_append_stops hd.2 hstops, dropWhile_append_stops hd.2 hstops]
      exact ⟨rfl, rfl⟩
    · rw [dropWhile_append_stops hd.2 hstops] at hdrop
      exact absurd rfl (hne sep (by rw [hdrop]; rfl))
  | cons hd htail ih =>
    obtain ⟨-, ⟨-, rfl, hne⟩ | ⟨cp', ds', rfl, hdrop, htail'⟩⟩ := (separated_iff hsep).mp h'
    · rw [dropWhile_append_stops hd.2 (stops_cons hsep)] at hne
      exact absurd rfl (hne sep rfl)
    · rw [takeWhile_append_stops hd.2 (stops_cons hsep)]
      rw [dropWhile_append_stops hd.2 (stops_cons hsep)] at hdrop
      obtain rfl := (List.cons.inj hdrop).2
      obtain ⟨rfl, rfl⟩ := ih htail'
      exact ⟨rfl, rfl⟩

theorem Separated.isToken (h : Separated tok sep cp ds rest) : ∀ d ∈ ds, IsToken tok d := by
  induction h with
  | last hd =>
    intro d hmem
    rwa [List.mem_singleton.mp hmem]
  | cons hd _ ih => exact List.forall_mem_cons.mpr ⟨hd, ih⟩

theorem Separated.ne_nil (h : Separated tok sep cp ds rest) : ds ≠ [] := by
  cases h with
  | last => exact List.cons_ne_nil _ _
  | cons => exact List.cons_ne_nil _ _

end OsdevArchive.Lib.Tokens
